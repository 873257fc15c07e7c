import Ivygrep.Spec.MerkleBuild
import Ivygrep.Spec.MerkleDiff
import Ivygrep.Spec.MerkleHash

/-!
# Targeted refresh

`refresh_paths_in_place` either leaves the snapshot alone or turns it into the full
build of the changed tree, with the diff that a full rescan would report.
-/

namespace Ivygrep.Native

variable {xxh3 : Xxh3} {walker : Walker} {before after : Tree} {snapshot : MerkleSnapshot}

/-- The walk over a path's components ends with the entry at the path. -/
theorem statComponents_spec {tree : Tree} {components : RelPath} (path : RelPath)
    (found metadata : Option Entry)
    (h : MerkleSnapshot.statComponents tree path found components = .ok (some metadata)) :
    (components = [] ∧ metadata = found) ∨
      (components ≠ [] ∧ metadata = tree.entryAt (path ++ components) ∧
        (metadata ≠ none → tree.unreadable (path ++ components) = false)) := by
  induction components generalizing path found with
  | nil =>
    simp only [MerkleSnapshot.statComponents, Except.ok.injEq, Option.some.injEq] at h
    exact .inl ⟨rfl, h.symm⟩
  | cons component components ih =>
    refine .inr ⟨by simp, ?_⟩
    have happend : path ++ component :: components = (path ++ [component]) ++ components := by simp
    simp only [MerkleSnapshot.statComponents] at h
    split at h
    · simp at h
    · rename_i hreadable
      split at h
      · -- A missing component: nothing exists below it either.
        rename_i hnone
        simp only [Except.ok.injEq, Option.some.injEq] at h
        subst h
        refine ⟨?_, by simp⟩
        by_contra hne
        obtain ⟨entry, hentry⟩ := Option.ne_none_iff_exists'.mp (Ne.symm hne)
        rw [happend] at hentry
        by_cases hcomponents : components = []
        · rw [hcomponents, List.append_nil, hnone] at hentry
          simp at hentry
        · rw [Tree.entryAt_above (by simp) hcomponents hentry] at hnone
          simp at hnone
      · simp at h
      · rename_i current _ hcurrent
        split at h
        · simp at h
        · rcases ih _ _ h with ⟨rfl, rfl⟩ | ⟨-, hmetadata, hread⟩
          · rw [hcurrent]
            exact ⟨rfl, fun _ => by simpa using hreadable⟩
          · rw [happend]
            exact ⟨hmetadata, hread⟩

/-- The suffix of a recorded hash is its ignore flag. -/
theorem endsWith_flaggedHash (hash : Str) (isIgnored : Bool) :
    Str.endsWith (flaggedHash hash isIgnored) "-1".toList = isIgnored := by
  rw [Str.endsWith, flaggedHash]
  cases isIgnored with
  | true => exact List.isSuffixOf_iff_suffix.mpr (List.suffix_append _ _)
  | false =>
    rw [Bool.eq_false_iff]
    intro h
    obtain ⟨front, hfront⟩ := List.isSuffixOf_iff_suffix.mp h
    have hlast := congrArg List.getLast? hfront
    simp at hlast

/-- The new hash of a path that the snapshot may record is the one of a full build. -/
theorem nextHash_spec (hbefore : MerkleSnapshot.build xxh3 walker before = .ok snapshot)
    {path : RelPath} {key : Str} (hkey : path.toStr = some key) {metadata : Option Entry}
    {hash : Option Str}
    (h : MerkleSnapshot.nextHash xxh3 snapshot.files key metadata = some hash)
    (hknown : hash ≠ none → key ∈ snapshot.files) :
    hash = metadataHashAt xxh3 walker path metadata := by
  have hold := MerkleSnapshot.build_getElem? hbefore hkey
  -- No recorded hash carries the ignore flag.
  have hflag : (snapshot.files[key]?).any (Str.endsWith · "-1".toList) = false := by
    rw [hold]
    cases hentry : before.entryAt path with
    | none => rfl
    | some entry =>
      cases entry with
      | file file =>
        simp only [metadataHashAt]
        split
        · exact endsWith_flaggedHash _ false
        · rfl
      | dir => rfl
      | symlink => rfl
      | special => rfl
  cases metadata with
  | none =>
    simp only [MerkleSnapshot.nextHash, Option.some.injEq] at h
    exact h.symm
  | some entry =>
    cases entry with
    | file file =>
      simp only [MerkleSnapshot.nextHash, hflag] at h
      simp only [metadataHashAt, Bool.and_eq_true, decide_eq_true_eq]
      split at h
      · rename_i hlen
        obtain rfl := Option.some.inj h
        -- The path was recorded before, so the walk lists it.
        have hmem := hknown (by simp)
        rw [← Std.ExtTreeMap.isSome_getElem?_iff_mem, hold] at hmem
        have hlisted : isListed walker false path = true := by
          revert hmem
          simp only [metadataHashAt]
          split
          · split
            · rename_i hboth
              simp only [Bool.and_eq_true] at hboth
              exact fun _ => hboth.1
            · simp
          · simp
        rw [if_pos ⟨hlisted, hlen⟩]
      · rename_i hlen
        obtain rfl := Option.some.inj h
        rw [if_neg fun hboth => hlen hboth.2]
    | dir => simp [MerkleSnapshot.nextHash] at h
    | symlink =>
      simp only [MerkleSnapshot.nextHash, Option.some.injEq] at h
      exact h.symm
    | special =>
      simp only [MerkleSnapshot.nextHash, Option.some.injEq] at h
      exact h.symm

/-- What one refreshed path tells: its update is the hash of a full build, only a
    recorded path gets a hash, and an existing path was readable. -/
theorem refreshPath_spec (hbefore : MerkleSnapshot.build xxh3 walker before = .ok snapshot)
    {updates updates' : MerkleSnapshot.Updates} {relPath : RelPath} {key : Str}
    (hkey : relPath.toStr = some key)
    (h : MerkleSnapshot.refreshPath xxh3 snapshot.files after updates relPath =
      .ok (some updates')) :
    updates' = updates.insert key (metadataHashAt xxh3 walker relPath (after.entryAt relPath)) ∧
      (metadataHashAt xxh3 walker relPath (after.entryAt relPath) ≠ none →
        key ∈ snapshot.files) ∧
      (after.entryAt relPath ≠ none → after.unreadable relPath = false) := by
  simp only [MerkleSnapshot.refreshPath, hkey] at h
  split at h
  · simp at h
  · rename_i hname
    rw [not_or] at hname
    cases hstat : MerkleSnapshot.statComponents after [] none relPath with
    | error error => simp [hstat, Except.map] at h
    | ok stat =>
      simp only [hstat, Except.map, Except.ok.injEq, Option.bind_eq_some_iff] at h
      obtain ⟨hash, ⟨metadata, rfl, hnext⟩, hupdate⟩ := h
      rcases statComponents_spec [] none metadata hstat with ⟨hnil, -⟩ | ⟨-, hmetadata, hread⟩
      · exact absurd hnil hname.1
      · rw [List.nil_append] at hmetadata hread
        subst hmetadata
        cases hash with
        | some hash =>
          simp only [Option.ite_none_right_eq_some, Option.some.injEq] at hupdate
          obtain ⟨hmem, rfl⟩ := hupdate
          rw [← nextHash_spec hbefore hkey hnext fun _ => hmem]
          exact ⟨rfl, fun _ => hmem, hread⟩
        | none =>
          simp only [Option.ite_none_left_eq_some, Option.some.injEq] at hupdate
          obtain ⟨-, rfl⟩ := hupdate
          rw [← nextHash_spec hbefore hkey hnext fun hne => absurd rfl hne]
          exact ⟨rfl, fun hne => absurd rfl hne, hread⟩

/-- What the loop over the changed paths tells: each of them has the update of a full
    build, and no other key has one. -/
theorem refreshUpdates_spec (hbefore : MerkleSnapshot.build xxh3 walker before = .ok snapshot)
    {relPaths : List RelPath} {updates result : MerkleSnapshot.Updates}
    (hutf8 : ∀ path ∈ relPaths, path.toStr.isSome)
    (h : MerkleSnapshot.refreshUpdates xxh3 snapshot.files after updates relPaths =
      .ok (some result)) :
    (∀ key, (∀ path ∈ relPaths, path.toStr ≠ some key) → result[key]? = updates[key]?) ∧
      ∀ path ∈ relPaths,
        (∀ key, path.toStr = some key →
          result[key]? = some (metadataHashAt xxh3 walker path (after.entryAt path)) ∧
          (metadataHashAt xxh3 walker path (after.entryAt path) ≠ none →
            key ∈ snapshot.files)) ∧
        (after.entryAt path ≠ none → after.unreadable path = false) := by
  induction relPaths generalizing updates with
  | nil =>
    simp only [MerkleSnapshot.refreshUpdates, Except.ok.injEq, Option.some.injEq] at h
    exact ⟨fun key _ => by rw [h], by simp⟩
  | cons relPath relPaths ih =>
    simp only [MerkleSnapshot.refreshUpdates, bind, Except.bind] at h
    cases hpath : MerkleSnapshot.refreshPath xxh3 snapshot.files after updates relPath with
    | error error => simp [hpath] at h
    | ok stepped =>
      cases stepped with
      | none => simp [hpath] at h
      | some stepped =>
        simp only [hpath] at h
        obtain ⟨key, hkey⟩ := Option.isSome_iff_exists.mp (hutf8 relPath (by simp))
        obtain ⟨rfl, hknown, hread⟩ := refreshPath_spec hbefore hkey hpath
        obtain ⟨hother, hrest⟩ := ih (fun path hmem => hutf8 path (List.mem_cons_of_mem _ hmem)) h
        constructor
        · intro other hnone
          rw [hother other fun path hmem => hnone path (List.mem_cons_of_mem _ hmem)]
          have hne : key ≠ other := by
            rintro rfl
            exact hnone relPath (by simp) hkey
          simp [Std.ExtTreeMap.getElem?_insert, Std.LawfulEqCmp.compare_eq_iff_eq, hne]
        · intro path hmem
          -- A path that occurs again later is decided there.
          by_cases hlater : path ∈ relPaths
          · exact hrest path hlater
          · obtain rfl : path = relPath := by simpa [hlater] using hmem
            refine ⟨fun other hsame => ?_, hread⟩
            obtain rfl := Option.some.inj (hkey.symm.trans hsame)
            refine ⟨?_, hknown⟩
            rw [hother key fun later hlater' heq =>
              hlater (RelPath.toStr_injective hkey heq ▸ hlater')]
            simp

/-! ## Agreement with a full rescan -/

/-- The trees differ at these paths only. -/
def SameOutside (relPaths : List RelPath) (before after : Tree) : Prop :=
  ∀ path ∉ relPaths, before.entryAt path = after.entryAt path ∧
    before.unreadable path = after.unreadable path

/-- A full build succeeds if the root is a directory and all walked entries are readable. -/
theorem MerkleSnapshot.build_of_readable {tree : Tree}
    (hroot : validateWorkspaceRoot tree = .ok ())
    (h : ∀ path entry, tree.entryAt path = some entry → isWalked walker (path, entry) = true →
      tree.unreadable path = false) :
    ∃ built, MerkleSnapshot.build xxh3 walker tree = .ok built := by
  have hnone : (tree.entries.find? fun entry =>
      isWalked walker entry && tree.unreadable entry.1) = none := by
    rw [List.find?_eq_none]
    intro entry hentry hunreadable
    rw [Bool.and_eq_true] at hunreadable
    have := h entry.1 entry.2 (Tree.entryAt_eq_some.mpr hentry) hunreadable.1
    simp [hunreadable.2] at this
  simp only [MerkleSnapshot.build, MerkleSnapshot.buildInner, bind, Except.bind, hroot, hnone]
  exact ⟨_, rfl⟩

/-- The walked entries of a successfully built tree are readable. -/
theorem MerkleSnapshot.readable_of_build
    (hbefore : MerkleSnapshot.build xxh3 walker before = .ok snapshot) {path : RelPath}
    {entry : Entry} (hentry : before.entryAt path = some entry)
    (hwalked : isWalked walker (path, entry) = true) : before.unreadable path = false := by
  simp only [MerkleSnapshot.build, MerkleSnapshot.buildInner, bind, Except.bind] at hbefore
  split at hbefore
  · simp at hbefore
  · split at hbefore
    · simp at hbefore
    · rename_i hnone
      rw [List.find?_eq_none] at hnone
      have := hnone (path, entry) (Tree.entryAt_eq_some.mp hentry)
      simpa [hwalked] using this

/-- After a targeted refresh that did not fall back, a full rescan succeeds. -/
private theorem exists_rescan {relPaths : List RelPath} {result : MerkleSnapshot.Updates}
    (hbefore : MerkleSnapshot.build xxh3 walker before = .ok snapshot)
    (hutf8 : ∀ path ∈ relPaths, path.toStr.isSome) (hsame : SameOutside relPaths before after)
    (hroot : validateWorkspaceRoot after = .ok ())
    (h : MerkleSnapshot.refreshUpdates xxh3 snapshot.files after ∅ relPaths =
      .ok (some result)) :
    ∃ full, MerkleSnapshot.build xxh3 walker after = .ok full := by
  refine MerkleSnapshot.build_of_readable hroot fun path entry hentry hwalked => ?_
  by_cases hmem : path ∈ relPaths
  · exact ((refreshUpdates_spec hbefore hutf8 h).2 path hmem).2 (by simp [hentry])
  · obtain ⟨hentries, hreadable⟩ := hsame path hmem
    rw [← hreadable]
    exact MerkleSnapshot.readable_of_build hbefore (hentries.trans hentry) hwalked

/-- The keys of the rescan are known ones, and each has the hash that the updates give. -/
private theorem rescan_getElem? {full : MerkleSnapshot} {relPaths : List RelPath}
    {result : MerkleSnapshot.Updates}
    (hbefore : MerkleSnapshot.build xxh3 walker before = .ok snapshot)
    (hafter : MerkleSnapshot.build xxh3 walker after = .ok full)
    (hutf8 : ∀ path ∈ relPaths, path.toStr.isSome) (hsame : SameOutside relPaths before after)
    (h : MerkleSnapshot.refreshUpdates xxh3 snapshot.files after ∅ relPaths =
      .ok (some result)) (key : Str) :
    full.files[key]? = (result.toList.lookup key).getD snapshot.files[key]? ∧
      (full.files[key]? ≠ none → snapshot.files[key]? ≠ none) := by
  obtain ⟨hother, hpaths⟩ := refreshUpdates_spec hbefore hutf8 h
  have hlookup : result.toList.lookup key = result[key]? := by
    refine Option.ext fun update => ?_
    rw [ForStd.lookup_eq_some_iff_of_nodup, Std.ExtTreeMap.mem_toList_iff_getElem?_eq_some]
    rw [Std.ExtTreeMap.map_fst_toList_eq_keys]
    exact Std.ExtTreeMap.nodup_keys
  rw [hlookup]
  by_cases hpath : ∃ path ∈ relPaths, path.toStr = some key
  · obtain ⟨path, hmem, hkey⟩ := hpath
    obtain ⟨hresult, hknown⟩ := (hpaths path hmem).1 key hkey
    have hfull := MerkleSnapshot.build_getElem? hafter hkey
    rw [hresult, Option.getD_some, hfull]
    refine ⟨rfl, fun hne => ?_⟩
    have := hknown hne
    rw [← Std.ExtTreeMap.isSome_getElem?_iff_mem] at this
    exact Option.isSome_iff_ne_none.mp this
  · -- The entry behind an unchanged key is the same in both trees.
    have hunchanged : full.files[key]? = snapshot.files[key]? := by
      by_cases hexists : ∃ path : RelPath, path.toStr = some key
      · obtain ⟨path, hkey⟩ := hexists
        have hout : path ∉ relPaths := fun hmem => hpath ⟨path, hmem, hkey⟩
        rw [MerkleSnapshot.build_getElem? hafter hkey, MerkleSnapshot.build_getElem? hbefore hkey,
          (hsame path hout).1]
      · have habsent : ∀ {tree : Tree} {built : MerkleSnapshot},
            MerkleSnapshot.build xxh3 walker tree = .ok built → built.files[key]? = none := by
          intro tree built hbuilt
          exact Std.ExtTreeMap.getElem?_eq_none fun hmem =>
            hexists (MerkleSnapshot.build_key hbuilt hmem)
        rw [habsent hafter, habsent hbefore]
    have hnone : result[key]? = none := by
      rw [hother key fun path hmem hkey => hpath ⟨path, hmem, hkey⟩]
      simp
    rw [hnone, Option.getD_none, hunchanged]
    exact ⟨rfl, fun h => h⟩

/-- All hashes of a build have 34 bytes. -/
private theorem build_hashLength (h : MerkleSnapshot.build xxh3 walker before = .ok snapshot) :
    HashLength snapshot.files.toList 34 := by
  rintro ⟨key, hash⟩ hmem
  rw [Std.ExtTreeMap.mem_toList_iff_getElem?_eq_some] at hmem
  have hkey : key ∈ snapshot.files := by
    rw [← Std.ExtTreeMap.isSome_getElem?_iff_mem, hmem]
    rfl
  obtain ⟨path, hpath⟩ := MerkleSnapshot.build_key h hkey
  rw [MerkleSnapshot.build_getElem? h hpath] at hmem
  simp only [metadataHashAt] at hmem
  split at hmem
  · split at hmem
    · obtain rfl := Option.some.inj hmem
      exact flaggedHash_bytes_length xxh3 _ false
    · simp at hmem
  · simp at hmem

/-- The diff of two builds describes their difference, if no collision of the root hash
    hides it. -/
private theorem diff_describes {full : MerkleSnapshot}
    (hbefore : MerkleSnapshot.build xxh3 walker before = .ok snapshot)
    (hafter : MerkleSnapshot.build xxh3 walker after = .ok full)
    (hkeys : ∀ key ∈ full.files, key ∈ snapshot.files)
    (hcollision : xxh3 (rootHashInput snapshot.files) = xxh3 (rootHashInput full.files) →
      rootHashInput snapshot.files = rootHashInput full.files) :
    (snapshot.diff full).Describes snapshot.files full.files := by
  rw [MerkleSnapshot.diff]
  split
  · rename_i hroot
    rw [(MerkleSnapshot.build_eq_ok hbefore).2.2, (MerkleSnapshot.build_eq_ok hafter).2.2] at hroot
    have hinput := hcollision (hexDigest_injective hroot)
    rw [files_eq_of_rootHashInput_eq (by decide) (build_hashLength hbefore)
      (build_hashLength hafter) hkeys hinput]
    exact MerkleDiff.describes_refl _
  · exact diffLists_describes _ _

/-- A targeted refresh that falls back or fails leaves the snapshot as it was. -/
theorem refreshPathsInPlace_unchanged (relPaths : List RelPath) (skipGitignore : Bool)
    {outcome : Except SnapshotError (Option MerkleDiff)} {updated : MerkleSnapshot}
    (h : MerkleSnapshot.refreshPathsInPlace xxh3 snapshot after relPaths skipGitignore =
      (outcome, updated)) (hnone : ∀ diff, outcome ≠ .ok (some diff)) : updated = snapshot := by
  simp only [MerkleSnapshot.refreshPathsInPlace] at h
  split at h
  · exact (Prod.mk.inj h).2.symm
  · split at h
    · exact (Prod.mk.inj h).2.symm
    · split at h
      · exact (Prod.mk.inj h).2.symm
      · exact (Prod.mk.inj h).2.symm
      · exact absurd (Prod.mk.inj h).1.symm (hnone _)

/-- A targeted refresh that succeeds has read every changed path. -/
private theorem refreshPathsInPlace_eq_ok {relPaths : List RelPath} {skipGitignore : Bool}
    {diff : MerkleDiff} {updated : MerkleSnapshot}
    (h : MerkleSnapshot.refreshPathsInPlace xxh3 snapshot after relPaths skipGitignore =
      (.ok (some diff), updated)) :
    validateWorkspaceRoot after = .ok () ∧
      ∃ result, MerkleSnapshot.refreshUpdates xxh3 snapshot.files after ∅ relPaths =
          .ok (some result) ∧
        diff = (result.toList.foldl MerkleSnapshot.applyUpdate (snapshot.files, ⟨[], []⟩)).2 ∧
        updated.files =
          (result.toList.foldl MerkleSnapshot.applyUpdate (snapshot.files, ⟨[], []⟩)).1 ∧
        updated.rootHash = if diff.addedOrModified ≠ [] ∨ diff.deleted ≠ [] then
          rootHash xxh3 updated.files else snapshot.rootHash := by
  simp only [MerkleSnapshot.refreshPathsInPlace] at h
  split at h
  · simp at h
  · split at h
    · simp at h
    · rename_i hroot
      split at h
      · simp at h
      · simp at h
      · rename_i result hresult
        simp only [Prod.mk.injEq, Except.ok.injEq, Option.some.injEq] at h
        obtain ⟨rfl, rfl⟩ := h
        exact ⟨hroot, result, hresult, rfl, rfl, rfl⟩

/-- A targeted refresh that succeeds gives the full build of the changed tree and the diff
    of a full rescan; one that falls back or fails leaves the snapshot as it was. -/
theorem refreshPathsInPlace_correct (relPaths : List RelPath) (skipGitignore : Bool)
    (hbefore : MerkleSnapshot.build xxh3 walker before = .ok snapshot)
    (hutf8 : ∀ path ∈ relPaths, path.toStr.isSome) (hsame : SameOutside relPaths before after)
    (hcollision : ∀ newer, MerkleSnapshot.build xxh3 walker after = .ok newer →
      xxh3 (rootHashInput snapshot.files) = xxh3 (rootHashInput newer.files) →
      rootHashInput snapshot.files = rootHashInput newer.files)
    {outcome : Except SnapshotError (Option MerkleDiff)} {updated : MerkleSnapshot}
    (h : MerkleSnapshot.refreshPathsInPlace xxh3 snapshot after relPaths skipGitignore =
      (outcome, updated)) :
    (∀ diff, outcome = .ok (some diff) →
      MerkleSnapshot.build xxh3 walker after = .ok updated ∧ diff = snapshot.diff updated) ∧
    ((∀ diff, outcome ≠ .ok (some diff)) → updated = snapshot) := by
  refine ⟨?_, refreshPathsInPlace_unchanged relPaths skipGitignore h⟩
  rintro diff rfl
  obtain ⟨hroot, result, hupdates, hfoldDiff, hfoldFiles, hupdatedRoot⟩ :=
    refreshPathsInPlace_eq_ok h
  obtain ⟨full, hfull⟩ := exists_rescan hbefore hutf8 hsame hroot hupdates
  have hget := rescan_getElem? hbefore hfull hutf8 hsame hupdates
  obtain ⟨hdescribes, hfiles⟩ := foldl_applyUpdate result.toList
    Std.ExtTreeMap.ordered_keys_toList (MerkleDiff.describes_refl snapshot.files)
    fun entry _ => ⟨⟨by simp, by simp⟩, rfl⟩
  rw [← hfoldDiff, ← hfoldFiles] at hdescribes
  rw [← hfoldFiles] at hfiles
  have hsameFiles : updated.files = full.files :=
    Std.ExtTreeMap.ext_getElem? fun key => by rw [hfiles, (hget key).1]
  have hkeys : ∀ key ∈ full.files, key ∈ snapshot.files := by
    intro key hkey
    rw [← Std.ExtTreeMap.isSome_getElem?_iff_mem, Option.isSome_iff_ne_none] at hkey ⊢
    exact (hget key).2 hkey
  have hdiff := diff_describes hbefore hfull hkeys (hcollision full hfull)
  rw [hsameFiles] at hdescribes
  obtain rfl := hdescribes.unique hdiff
  have hsameRoot : updated.rootHash = full.rootHash := by
    rw [hupdatedRoot, (MerkleSnapshot.build_eq_ok hfull).2.2, hsameFiles]
    split
    · rfl
    · -- Nothing changed, so the old root hash is still right.
      rename_i hempty
      simp only [ne_eq, not_or, not_not] at hempty
      have hnone : snapshot.diff full = ⟨[], []⟩ := by rw [← hempty.1, ← hempty.2]
      rw [hnone] at hdiff
      rw [(MerkleSnapshot.build_eq_ok hbefore).2.2, hdiff.eq_of_empty]
  have hupdated : updated = full := by
    cases updated
    cases full
    simp only at hsameFiles hsameRoot
    rw [hsameFiles, hsameRoot]
  rw [hupdated]
  exact ⟨hfull, rfl⟩

/-! ## A changed and a removed file -/

private def sampleName (text : String) (h : text.toList ≠ [] ∧ '/' ∉ text.toList) : FileName :=
  .utf8 ⟨text.toList, h.1, h.2⟩

private def sampleA : RelPath := [sampleName "src" (by decide), sampleName "a.rs" (by decide)]
private def sampleB : RelPath := [sampleName "b.rs" (by decide)]

private def sampleFile (ctime : Int) : Entry := .file ⟨⟨3, some 7, ctime, 0⟩, []⟩

private def sampleBefore : Tree where
  isDir := some true
  entries := [([sampleName "src" (by decide)], .dir), (sampleA, sampleFile 1), (sampleB, sampleFile 2)]
  unreadable _ := false
  nodup := by decide
  parent := by
    simp only [List.forall_mem_cons, List.not_mem_nil, false_imp_iff, implies_true, and_true]
    exact ⟨⟨[], _, rfl, .inl rfl⟩, ⟨[_], _, rfl, .inr (by simp)⟩, ⟨[], _, rfl, .inl rfl⟩⟩

private def sampleAfter : Tree where
  isDir := some true
  entries := [([sampleName "src" (by decide)], .dir), (sampleA, sampleFile 5)]
  unreadable _ := false
  nodup := by decide
  parent := by
    simp only [List.forall_mem_cons, List.not_mem_nil, false_imp_iff, implies_true, and_true]
    exact ⟨⟨[], _, rfl, .inl rfl⟩, ⟨[_], _, rfl, .inr (by simp)⟩⟩

/-- A hash without collisions on the inputs of the sample. -/
private def sampleXxh3 (data : List UInt8) : BitVec 128 :=
  data.foldl (fun hash byte => hash * 257 + BitVec.ofNat 128 (byte.toNat + 1)) 0

private def sampleSnapshot : MerkleSnapshot :=
  match MerkleSnapshot.build sampleXxh3 (fun _ _ => true) sampleBefore with
  | .ok snapshot => snapshot
  | .error _ => ⟨[], ∅⟩

/-- Events for a changed file, twice, and for a removed one give the full rescan. -/
theorem refreshPathsInPlace_correct_sample :
    ∃ updated, MerkleSnapshot.refreshPathsInPlace sampleXxh3 sampleSnapshot sampleAfter
        [sampleA, sampleB, sampleA] false =
          (.ok (some ⟨[("src/a.rs".toList, false)], ["b.rs".toList]⟩), updated) ∧
      MerkleSnapshot.build sampleXxh3 (fun _ _ => true) sampleAfter = .ok updated := by
  have hbefore : MerkleSnapshot.build sampleXxh3 (fun _ _ => true) sampleBefore =
      .ok sampleSnapshot := by
    have hbuilds : ∃ built, MerkleSnapshot.build sampleXxh3 (fun _ _ => true) sampleBefore =
        .ok built :=
      MerkleSnapshot.build_of_readable rfl fun _ _ _ _ => rfl
    obtain ⟨built, hbuilt⟩ := hbuilds
    rw [sampleSnapshot, hbuilt]
  have hsame : SameOutside [sampleA, sampleB, sampleA] sampleBefore sampleAfter := by
    intro path hpath
    simp only [List.mem_cons, List.not_mem_nil, or_false, not_or] at hpath
    refine ⟨?_, rfl⟩
    simp only [Tree.entryAt, sampleBefore, sampleAfter, List.lookup_cons, List.lookup_nil,
      beq_eq_false_iff_ne.mpr hpath.1, beq_eq_false_iff_ne.mpr hpath.2.1]
  have hcollision : ∀ newer, MerkleSnapshot.build sampleXxh3 (fun _ _ => true) sampleAfter =
      .ok newer → sampleXxh3 (rootHashInput sampleSnapshot.files) =
        sampleXxh3 (rootHashInput newer.files) →
      rootHashInput sampleSnapshot.files = rootHashInput newer.files := by
    intro newer hnewer heq
    refine absurd heq ?_
    rw [(MerkleSnapshot.build_eq_ok hnewer).2.1]
    decide +kernel
  have hdiff : (MerkleSnapshot.refreshPathsInPlace sampleXxh3 sampleSnapshot sampleAfter
      [sampleA, sampleB, sampleA] false).1 =
        .ok (some ⟨[("src/a.rs".toList, false)], ["b.rs".toList]⟩) := by
    decide +kernel
  have hutf8 : ∀ path ∈ [sampleA, sampleB, sampleA], path.toStr.isSome := by decide
  generalize hrefresh : MerkleSnapshot.refreshPathsInPlace sampleXxh3 sampleSnapshot sampleAfter
    [sampleA, sampleB, sampleA] false = result at hdiff ⊢
  obtain ⟨outcome, updated⟩ := result
  simp only at hdiff
  subst hdiff
  exact ⟨updated, rfl, ((refreshPathsInPlace_correct _ _ hbefore hutf8 hsame hcollision
    hrefresh).1 _ rfl).1⟩

end Ivygrep.Native
