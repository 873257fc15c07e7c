import Ivygrep.Native.Overlay
import Ivygrep.Spec.MerkleBuild
import Ivygrep.Spec.MerkleDiff
import Ivygrep.Spec.MerkleRefresh

/-!
# What the scans of a checkout record

The file map of a build in either hash mode, as a function of the scanned files, and the
relation of a recorded stamp to the files that have it.
-/

namespace Ivygrep.Native

/-- The file that a scan of the checkout lists under a key. -/
def Checkout.scanned (checkout : Checkout) (key : Str) : Option SourceFile :=
  (checkout.tree.entries.filterMap (snapshotFile checkout.walker)).lookup key

/-- The ignore flag that a scan of the checkout gives to a key. -/
def Checkout.isIgnored (checkout : Checkout) (key : Str) : Bool := !checkout.unignored key

variable {xxh3 : Xxh3} {checkout : Checkout} {snapshot : MerkleSnapshot}

/-- The scanned keys are different. -/
theorem scanned_nodup (walker : Walker) (tree : Tree) :
    ((tree.entries.filterMap (snapshotFile walker)).map Prod.fst).Nodup := by
  unfold List.Nodup
  rw [List.pairwise_map, List.pairwise_filterMap]
  apply (List.pairwise_map.mp tree.nodup).imp
  intro left right hne file hleft file' hright heq
  have hkey := (snapshotFile_eq_some.mp hleft).2.2.2
  rw [heq] at hkey
  exact hne (RelPath.toStr_injective hkey (snapshotFile_eq_some.mp hright).2.2.2)

/-- A scanned file is a file of the tree, so opening its key finds it. -/
theorem Checkout.opened_of_scanned {key : Str} {file : SourceFile}
    (h : checkout.scanned key = some file) : checkout.opened key = some file := by
  unfold Checkout.scanned at h
  rw [ForStd.lookup_eq_some_iff_of_nodup (scanned_nodup _ _)] at h
  obtain ⟨entry, hentry, hfile⟩ := List.mem_filterMap.mp h
  obtain ⟨hkind, -, -, hkey⟩ := snapshotFile_eq_some.mp hfile
  apply checkout.opened_file entry.1 key file hkey
  apply Tree.entryAt_eq_some.mpr
  rw [← hkind]
  exact hentry

/-- A build, in either hash mode, records the scanned files. -/
theorem buildInner_getElem? {fileHash : Str → SourceFile → Str} {walker : Walker}
    {unignored : Str → Bool} {tree : Tree}
    (h : MerkleSnapshot.buildInner xxh3 fileHash walker unignored tree = .ok snapshot)
    (key : Str) :
    snapshot.files[key]? =
      ((tree.entries.filterMap (snapshotFile walker)).lookup key).map fun file =>
        flaggedHash (fileHash key file) (!unignored key) := by
  have hfiles : snapshot.files = Std.ExtTreeMap.ofList
      ((tree.entries.filterMap (snapshotFile walker)).map fun entry =>
        (entry.1, flaggedHash (fileHash entry.1 entry.2) (!unignored entry.1))) compare := by
    unfold MerkleSnapshot.buildInner at h
    cases hroot : validateWorkspaceRoot tree with
    | error error => simp [hroot, bind, Except.bind] at h
    | ok root =>
      simp only [hroot, bind, Except.bind] at h
      split at h
      · cases h
      · cases h
        rfl
  have hnodup := scanned_nodup walker tree
  rw [hfiles]
  cases hlookup : (tree.entries.filterMap (snapshotFile walker)).lookup key with
  | none =>
    apply Std.ExtTreeMap.getElem?_ofList_of_contains_eq_false
    rw [List.lookup_eq_none_iff] at hlookup
    simp only [List.map_map, List.contains_eq_mem, decide_eq_false_iff_not, List.mem_map]
    intro hmem
    obtain ⟨entry, hentry, heq⟩ := hmem
    have hne := hlookup entry hentry
    simp only [Function.comp_apply] at heq
    simp [heq] at hne
  | some file =>
    rw [ForStd.lookup_eq_some_iff_of_nodup hnodup] at hlookup
    apply Std.ExtTreeMap.getElem?_ofList_of_mem Std.ReflCmp.compare_self
    · rw [List.pairwise_map]
      apply (List.pairwise_map.mp hnodup).imp
      intro left right hne heq
      exact hne (Std.LawfulEqCmp.eq_of_compare heq)
    · exact List.mem_map.mpr ⟨(key, file), hlookup, rfl⟩

theorem buildCheckout_getElem? (h : MerkleSnapshot.buildCheckout xxh3 checkout = .ok snapshot)
    (key : Str) :
    snapshot.files[key]? = (checkout.scanned key).map fun file =>
      flaggedHash (metadataFileHash xxh3 file.metadata) (checkout.isIgnored key) :=
  buildInner_getElem? h key

theorem buildContentBased_getElem?
    (h : MerkleSnapshot.buildContentBased xxh3 checkout = .ok snapshot) (key : Str) :
    snapshot.files[key]? = (checkout.scanned key).map fun file =>
      flaggedHash (hexDigest xxh3 (MerkleSnapshot.contentHashInput key file))
        (checkout.isIgnored key) :=
  buildInner_getElem? h key

/-! ## Stamps -/

theorem stripSuffix_append (hash suffix : Str) :
    Str.stripSuffix (hash ++ suffix) suffix = some hash := by
  have hends : Str.endsWith (hash ++ suffix) suffix = true :=
    List.isSuffixOf_iff_suffix.mpr (List.suffix_append _ _)
  unfold Str.stripSuffix
  rw [if_pos hends]
  simp

theorem eq_append_of_stripSuffix {s suffix rest : Str}
    (h : Str.stripSuffix s suffix = some rest) : s = rest ++ suffix := by
  unfold Str.stripSuffix at h
  split at h
  · rename_i hends
    obtain ⟨front, hfront⟩ := List.isSuffixOf_iff_suffix.mp hends
    cases h
    rw [← hfront]
    simp
  · cases h

/-- A recorded hash without its ignore flag. -/
theorem stripSuffix_flaggedHash (hash : Str) (isIgnored : Bool) :
    (Str.stripSuffix (flaggedHash hash isIgnored) "-0".toList).or
      (Str.stripSuffix (flaggedHash hash isIgnored) "-1".toList) = some hash := by
  unfold flaggedHash
  cases isIgnored with
  | false => simp [stripSuffix_append]
  | true =>
    have hnot : Str.stripSuffix (hash ++ "-1".toList) "-0".toList = none := by
      unfold Str.stripSuffix Str.endsWith
      rw [if_neg]
      intro h
      obtain ⟨front, hfront⟩ := List.isSuffixOf_iff_suffix.mp h
      have hlast := congrArg List.getLast? hfront
      simp at hlast
    simp only [if_true, hnot, Option.none_or, stripSuffix_append]

/-- A hash that a file matches is the file's stamp with some flag. -/
theorem pathMatches_eq_true {file : Option SourceFile} {hash : Str}
    (h : MerkleSnapshot.pathMatchesMetadataSnapshot xxh3 file hash = true) :
    ∃ found, file = some found ∧
      hash = flaggedHash (metadataFileHash xxh3 found.metadata)
        (Str.endsWith hash "-1".toList) := by
  unfold MerkleSnapshot.pathMatchesMetadataSnapshot at h
  cases hstrip : (Str.stripSuffix hash "-0".toList).or (Str.stripSuffix hash "-1".toList) with
  | none =>
    rw [hstrip] at h
    cases h
  | some expected =>
    have hflag : ∃ isIgnored, hash = flaggedHash expected isIgnored := by
      cases hzero : Str.stripSuffix hash "-0".toList with
      | some rest =>
        rw [hzero, Option.some_or] at hstrip
        cases hstrip
        exact ⟨false, eq_append_of_stripSuffix hzero⟩
      | none =>
        rw [hzero, Option.none_or] at hstrip
        exact ⟨true, eq_append_of_stripSuffix hstrip⟩
    obtain ⟨isIgnored, rfl⟩ := hflag
    rw [stripSuffix_flaggedHash] at h
    rw [endsWith_flaggedHash]
    cases file with
    | none => simp at h
    | some found =>
      simp only [Bool.and_eq_true, decide_eq_true_eq, beq_iff_eq] at h
      exact ⟨found, rfl, by rw [h.2]⟩

/-- The flag and the hash of a recorded hash are determined by it. -/
theorem flaggedHash_injective {left right : Str} {leftIgnored rightIgnored : Bool}
    (h : flaggedHash left leftIgnored = flaggedHash right rightIgnored) :
    left = right ∧ leftIgnored = rightIgnored := by
  have hstrip := stripSuffix_flaggedHash left leftIgnored
  rw [h, stripSuffix_flaggedHash] at hstrip
  have hflag := endsWith_flaggedHash left leftIgnored
  rw [h, endsWith_flaggedHash] at hflag
  exact ⟨(Option.some.inj hstrip).symm, hflag.symm⟩

end Ivygrep.Native
