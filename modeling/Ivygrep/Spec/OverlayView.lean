import Ivygrep.Spec.OverlayStore
import Ivygrep.Spec.MerkleHash

/-!
# The paths of a worktree overlay

What an overlay may know and hold of one path, what a run leaves of it from the lists
that the run goes through, and the run that creates the overlay.

## Key results

- `persistOverlay_indexed`, `persistOverlay_not_indexed`: one path through a run
- `createOverlay_pathState`: what the creation makes of every path
-/

namespace Ivygrep.Native

variable {xxh3 : Xxh3} {chunked : Str → List UInt8 → Bool} {base : BaseIndex}
  {contentOf : Str → Str → List UInt8}

/-! ## What is assumed of stamps and of the base -/

/-- Equal stamps of a path mean equal content: `contentOf` gives it. -/
def Stamped (xxh3 : Xxh3) (contentOf : Str → Str → List UInt8) (checkout : Checkout) : Prop :=
  ∀ key file, checkout.opened key = some file →
    file.content = contentOf key (metadataFileHash xxh3 file.metadata)

/-- Where a file of the live base has the stamp that the base index recorded, the base
    rows are made of it. -/
def BaseIndex.Holds (base : BaseIndex) (xxh3 : Xxh3) (chunked : Str → List UInt8 → Bool)
    (mainRoot : Checkout) : Prop :=
  ∀ key file isIgnored, mainRoot.opened key = some file →
    base.snapshot.files[key]? =
      some (flaggedHash (metadataFileHash xxh3 file.metadata) isIgnored) →
    base.rows[key]? = indexFile chunked key file.content isIgnored

/-! ## Snapshots -/

theorem pathExistsInBase_iff {key : Str} :
    pathExistsInBase base key = true ↔ key ∈ base.snapshot.files := by
  unfold pathExistsInBase
  rw [Std.ExtTreeMap.contains_iff_mem]

/-- The diff of two snapshots describes their difference, if their root hashes tell them
    apart. -/
theorem MerkleSnapshot.diff_describes {older newer : MerkleSnapshot}
    (hroot : older.rootHash = newer.rootHash → older.files = newer.files) :
    (older.diff newer).Describes older.files newer.files := by
  unfold MerkleSnapshot.diff
  split
  · rename_i heq
    rw [hroot heq]
    exact MerkleDiff.describes_refl _
  · exact diffLists_describes _ _

/-- `markVanished` replaces the hashes of its keys and keeps their flags. -/
theorem markVanishedFiles_getElem? (files : BTreeMap Str Str) (keys : List Str) (key : Str) :
    (MerkleSnapshot.markVanishedFiles files keys)[key]? =
      if key ∈ keys then files[key]?.map fun hash =>
        flaggedHash MerkleSnapshot.vanishedFileHash (Str.endsWith hash "-1".toList)
      else files[key]? := by
  induction keys generalizing files with
  | nil => simp [MerkleSnapshot.markVanishedFiles]
  | cons other keys ih =>
    unfold MerkleSnapshot.markVanishedFiles
    cases hother : files[other]? with
    | none =>
      simp only [ih, List.mem_cons]
      by_cases hkey : key = other
      · subst hkey
        simp [hother]
      · simp [hkey]
    | some hash =>
      simp only [ih, List.mem_cons, Std.ExtTreeMap.getElem?_insert, compare_eq_iff]
      by_cases hkey : key = other
      · subst hkey
        simp only [hother, if_true, true_or, Option.map_some, endsWith_flaggedHash, ite_self]
      · simp [hkey]

/-- No file has the hash of a vanished file. -/
theorem metadataFileHash_ne_vanished (metadata : Metadata) :
    metadataFileHash xxh3 metadata ≠ MerkleSnapshot.vanishedFileHash := by
  intro heq
  have hlength := congrArg List.length heq
  unfold metadataFileHash at hlength
  rw [hexDigest_length] at hlength
  exact absurd hlength (by decide)

/-! ## The state of one path -/

/-- What an overlay knows and holds of one path. -/
inductive PathState (xxh3 : Xxh3) (chunked : Str → List UInt8 → Bool) (base : BaseIndex)
    (contentOf : Str → Str → List UInt8) (overlay : Overlay) (key : Str) : Prop where
  /-- It is not in the worktree. -/
  | gone (hsnapshot : overlay.snapshot.files[key]? = none)
      (hchunks : overlay.store.chunks[key]? = none)
      (htombstone : key ∈ overlay.store.tombstones ↔ key ∈ base.snapshot.files)
  /-- The base serves it. -/
  | inherited (metadata : Metadata) (isIgnored : Bool) (content : List UInt8)
      (hsnapshot : overlay.snapshot.files[key]? =
        some (flaggedHash (metadataFileHash xxh3 metadata) isIgnored))
      (hchunks : overlay.store.chunks[key]? = none)
      (htombstone : key ∉ overlay.store.tombstones)
      (hrow : base.rows[key]? = indexFile chunked key content isIgnored)
      (hcontent : normalizedIndexableContent content =
        normalizedIndexableContent (contentOf key (metadataFileHash xxh3 metadata)))
  /-- The overlay serves it. -/
  | owned (metadata : Metadata) (isIgnored : Bool)
      (hsnapshot : overlay.snapshot.files[key]? =
        some (flaggedHash (metadataFileHash xxh3 metadata) isIgnored))
      (hchunks : overlay.store.chunks[key]? =
        indexFile chunked key (contentOf key (metadataFileHash xxh3 metadata)) isIgnored)
      (htombstone : key ∈ overlay.store.tombstones ↔ key ∈ base.snapshot.files)
  /-- It vanished before it was read. -/
  | vanished (isIgnored : Bool)
      (hsnapshot : overlay.snapshot.files[key]? =
        some (flaggedHash MerkleSnapshot.vanishedFileHash isIgnored))
      (hchunks : overlay.store.chunks[key]? = none)
      (htombstone : key ∈ overlay.store.tombstones ↔ key ∈ base.snapshot.files)

/-- In every state, only paths of the base have a tombstone. -/
theorem PathState.mem_base {overlay : Overlay} {key : Str}
    (h : PathState xxh3 chunked base contentOf overlay key)
    (htombstone : key ∈ overlay.store.tombstones) : key ∈ base.snapshot.files := by
  cases h with
  | gone _ _ hiff => exact hiff.mp htombstone
  | inherited _ _ _ _ _ hnot => exact absurd htombstone hnot
  | owned _ _ _ _ hiff => exact hiff.mp htombstone
  | vanished _ _ _ hiff => exact hiff.mp htombstone

/-- The state depends on what the overlay has under the key. -/
theorem PathState.congr {overlay next : Overlay} {key : Str}
    (h : PathState xxh3 chunked base contentOf overlay key)
    (hsnapshot : next.snapshot.files[key]? = overlay.snapshot.files[key]?)
    (hchunks : next.store.chunks[key]? = overlay.store.chunks[key]?)
    (htombstone : key ∈ next.store.tombstones ↔ key ∈ overlay.store.tombstones) :
    PathState xxh3 chunked base contentOf next key := by
  cases h with
  | gone hs hc ht => exact .gone (hsnapshot.trans hs) (hchunks.trans hc) (htombstone.trans ht)
  | inherited metadata isIgnored content hs hc ht hr hn =>
    exact .inherited metadata isIgnored content (hsnapshot.trans hs) (hchunks.trans hc)
      (fun hmem => ht (htombstone.mp hmem)) hr hn
  | owned metadata isIgnored hs hc ht =>
    exact .owned metadata isIgnored (hsnapshot.trans hs) (hchunks.trans hc) (htombstone.trans ht)
  | vanished isIgnored hs hc ht =>
    exact .vanished isIgnored (hsnapshot.trans hs) (hchunks.trans hc) (htombstone.trans ht)

/-! ## One run -/

variable (xxh3 chunked base) in
/-- What a run leaves of one path, from the lists it goes through. -/
theorem persistOverlay_spec (read : Str → Option SourceFile) (store : OverlayStore)
    (clear : List Str) (diff : MerkleDiff) (pending : MerkleSnapshot) (key : Str)
    (isIgnored : Bool) (hflag : ∀ entry ∈ diff.addedOrModified, entry.1 = key →
      entry.2 = isIgnored) :
    let overlay := persistOverlay xxh3 chunked base read store clear diff pending
    (overlay.store.chunks[key]? =
      if key ∈ diff.addedOrModified.map Prod.fst then readRow chunked read key isIgnored
      else if key ∈ diff.deleted ∨ key ∈ clear then none else store.chunks[key]?) ∧
    (key ∈ overlay.store.tombstones ↔
      (key ∈ diff.addedOrModified.map Prod.fst ∧ key ∈ base.snapshot.files) ∨
        if key ∈ diff.deleted then key ∈ base.snapshot.files
        else key ∉ clear ∧ key ∈ store.tombstones) ∧
    overlay.snapshot.files[key]? =
      if key ∈ diff.addedOrModified.map Prod.fst ∧ read key = none then
        pending.files[key]?.map fun hash =>
          flaggedHash MerkleSnapshot.vanishedFileHash (Str.endsWith hash "-1".toList)
      else pending.files[key]? := by
  intro overlay
  obtain ⟨hclear, hclearTomb⟩ := clearPaths_spec key store clear
  obtain ⟨hdelete, hdeleteTomb⟩ := deletePaths_spec base key (clearPaths store clear) diff.deleted
  obtain ⟨hhide, hhideTomb⟩ := hidePaths_spec base key
    (deletePaths base (clearPaths store clear) diff.deleted) diff.addedOrModified
  obtain ⟨hingest, hvanished⟩ := ingestFiles_spec chunked read key
    (hidePaths base (deletePaths base (clearPaths store clear) diff.deleted)
      diff.addedOrModified).chunks [] diff.addedOrModified isIgnored hflag
  rw [pathExistsInBase_iff] at hdeleteTomb hhideTomb
  refine ⟨?_, ?_, ?_⟩
  · show (ingestFiles chunked read _ [] diff.addedOrModified).1[key]? = _
    rw [hingest, hhide, hdelete, hclear]
    by_cases hdeleted : key ∈ diff.deleted
    · simp [hdeleted]
    · simp [hdeleted]
  · show key ∈ (hidePaths base _ diff.addedOrModified).tombstones ↔ _
    rw [hhideTomb, hdeleteTomb, hclearTomb]
  · show (if (ingestFiles chunked read _ [] diff.addedOrModified).2.isEmpty then pending
      else pending.markVanished xxh3 _).files[key]? = _
    split
    · rename_i hempty
      rw [List.isEmpty_iff.mp hempty] at hvanished
      rw [if_neg]
      intro hmissing
      exact absurd (hvanished.mpr (.inr hmissing)) (by simp)
    · show (MerkleSnapshot.markVanishedFiles pending.files _)[key]? = _
      rw [markVanishedFiles_getElem?]
      simp only [hvanished, List.not_mem_nil, false_or]

/-- Opening after the scan finds the scanned file, or nothing. -/
theorem readAfterScan_of_scanned {worktree : Checkout} {vanished : Str → Bool} {key : Str}
    {file : SourceFile} (h : worktree.scanned key = some file) :
    readAfterScan worktree vanished key = if vanished key then none else some file := by
  unfold readAfterScan
  rw [worktree.opened_of_scanned h]

/-- The owners that join a diff are paths of the snapshot with its flags. -/
theorem mem_pushOwners {current : MerkleSnapshot} {worktree : Checkout} {skipped owners : List Str}
    {diff : MerkleDiff} {entry : Str × Bool}
    (h : entry ∈ (pushOwners current worktree skipped diff owners).addedOrModified) :
    entry ∈ diff.addedOrModified ∨ ∃ hash, current.files[entry.1]? = some hash ∧
      entry.2 = Str.endsWith hash "-1".toList := by
  unfold pushOwners at h
  cases List.mem_append.mp h with
  | inl hold => exact .inl hold
  | inr hnew =>
    right
    obtain ⟨owner, -, howner⟩ := List.mem_filterMap.mp hnew
    split at howner
    · cases howner
    · obtain ⟨hash, hhash, hentry⟩ := Option.bind_eq_some_iff.mp howner
      split at hentry
      · cases hentry
        exact ⟨hash, hhash, rfl⟩
      · cases hentry

/-- The changed files of a run with its dependents: those of the diff, and further paths
    of the snapshot. -/
theorem addDependents_spec {owners : Owners} {current : MerkleSnapshot} {worktree : Checkout}
    {clear : List Str} {diff : MerkleDiff} :
    (addDependents owners current worktree clear diff).deleted = diff.deleted ∧
    (∀ entry ∈ diff.addedOrModified,
      entry ∈ (addDependents owners current worktree clear diff).addedOrModified) ∧
    ∀ entry ∈ (addDependents owners current worktree clear diff).addedOrModified,
      entry ∈ diff.addedOrModified ∨ ∃ hash, current.files[entry.1]? = some hash ∧
        entry.2 = Str.endsWith hash "-1".toList := by
  refine ⟨rfl, ?_, ?_⟩
  · intro entry hentry
    exact List.mem_append_left _ (List.mem_append_left _ hentry)
  · intro entry hentry
    cases mem_pushOwners hentry with
    | inl hold => exact mem_pushOwners hold
    | inr hnew => exact .inr hnew

/-- The state that a run leaves of a path that it indexes: it is read, or has vanished. -/
theorem pathState_of_indexed {overlay : Overlay} {worktree : Checkout} {vanished : Str → Bool}
    {key : Str} {file : SourceFile} {isIgnored : Bool} (hstamp : Stamped xxh3 contentOf worktree)
    (hscanned : worktree.scanned key = some file)
    (hchunks : overlay.store.chunks[key]? =
      readRow chunked (readAfterScan worktree vanished) key isIgnored)
    (htombstone : key ∈ overlay.store.tombstones ↔ key ∈ base.snapshot.files)
    (hsnapshot : overlay.snapshot.files[key]? =
      some (flaggedHash (if vanished key then MerkleSnapshot.vanishedFileHash
        else metadataFileHash xxh3 file.metadata) isIgnored)) :
    PathState xxh3 chunked base contentOf overlay key := by
  unfold readRow at hchunks
  rw [readAfterScan_of_scanned hscanned] at hchunks
  cases hvanished : vanished key with
  | true =>
    rw [hvanished] at hchunks hsnapshot
    exact .vanished isIgnored hsnapshot hchunks htombstone
  | false =>
    rw [hvanished, if_neg Bool.false_ne_true] at hchunks hsnapshot
    refine .owned _ isIgnored hsnapshot ?_ htombstone
    rw [hchunks, ← hstamp key file (worktree.opened_of_scanned hscanned)]
    rfl

/-- A run over the worktree `worktree`: the lists that it goes through fit the snapshot
    that it saves. -/
structure RunLists (xxh3 : Xxh3) (worktree : Checkout) (pending : MerkleSnapshot)
    (diff : MerkleDiff) : Prop where
  recorded : ∀ key, pending.files[key]? = (worktree.scanned key).map fun file =>
    flaggedHash (metadataFileHash xxh3 file.metadata) (worktree.isIgnored key)
  changed : ∀ entry ∈ diff.addedOrModified, ∃ hash, pending.files[entry.1]? = some hash ∧
    entry.2 = Str.endsWith hash "-1".toList
  gone : ∀ key ∈ diff.deleted, pending.files[key]? = none

section Persist

variable {worktree : Checkout} {pending : MerkleSnapshot} {diff : MerkleDiff}
  {store : OverlayStore} {clear : List Str} {vanished : Str → Bool} {key : Str}

/-- An added file carries the ignore flag of the scan. -/
theorem RunLists.flag (h : RunLists xxh3 worktree pending diff) :
    ∀ entry ∈ diff.addedOrModified, entry.1 = key → entry.2 = worktree.isIgnored key := by
  intro entry hentry hkey
  obtain ⟨hash, hhash, hflag⟩ := h.changed entry hentry
  rw [h.recorded, hkey, Option.map_eq_some_iff] at hhash
  obtain ⟨file, -, rfl⟩ := hhash
  rw [hflag, endsWith_flaggedHash]

theorem RunLists.scanned (h : RunLists xxh3 worktree pending diff)
    (hadded : key ∈ diff.addedOrModified.map Prod.fst) :
    ∃ file, worktree.scanned key = some file := by
  obtain ⟨entry, hentry, rfl⟩ := List.mem_map.mp hadded
  obtain ⟨hash, hhash, -⟩ := h.changed entry hentry
  rw [h.recorded, Option.map_eq_some_iff] at hhash
  exact ⟨hhash.choose, hhash.choose_spec.1⟩

/-- A path that the run indexes. -/
theorem persistOverlay_indexed (h : RunLists xxh3 worktree pending diff)
    (hstamp : Stamped xxh3 contentOf worktree)
    (hadded : key ∈ diff.addedOrModified.map Prod.fst)
    (htombstone : key ∈ store.tombstones → key ∈ base.snapshot.files) :
    PathState xxh3 chunked base contentOf (persistOverlay xxh3 chunked base
      (readAfterScan worktree vanished) store clear diff pending) key := by
  obtain ⟨file, hscanned⟩ := h.scanned hadded
  obtain ⟨hchunks, htombstones, hsnapshot⟩ := persistOverlay_spec xxh3 chunked base
    (readAfterScan worktree vanished) store clear diff pending key (worktree.isIgnored key) h.flag
  have hnot : key ∉ diff.deleted := by
    intro hdeleted
    have hnone := h.gone key hdeleted
    rw [h.recorded, hscanned] at hnone
    cases hnone
  rw [if_pos hadded] at hchunks
  apply pathState_of_indexed hstamp hscanned hchunks
  · rw [htombstones, if_neg hnot]
    constructor
    · intro hmem
      cases hmem with
      | inl hmem => exact hmem.2
      | inr hmem => exact htombstone hmem.2
    · intro hmem
      exact .inl ⟨hadded, hmem⟩
  · rw [hsnapshot, h.recorded, hscanned, readAfterScan_of_scanned hscanned]
    cases vanished key with
    | true => simp only [hadded, if_true, and_self, Option.map_some, endsWith_flaggedHash]
    | false => simp [hadded]

variable (chunked base store clear vanished) in
/-- A path that the run does not index keeps what the loops before leave of it. -/
theorem persistOverlay_not_indexed (h : RunLists xxh3 worktree pending diff)
    (hadded : key ∉ diff.addedOrModified.map Prod.fst) :
    let overlay := persistOverlay xxh3 chunked base (readAfterScan worktree vanished) store clear
      diff pending
    (overlay.store.chunks[key]? =
      if key ∈ diff.deleted ∨ key ∈ clear then none else store.chunks[key]?) ∧
    (key ∈ overlay.store.tombstones ↔
      if key ∈ diff.deleted then key ∈ base.snapshot.files
      else key ∉ clear ∧ key ∈ store.tombstones) ∧
    overlay.snapshot.files[key]? = pending.files[key]? := by
  obtain ⟨hchunks, htombstones, hsnapshot⟩ := persistOverlay_spec xxh3 chunked base
    (readAfterScan worktree vanished) store clear diff pending key (worktree.isIgnored key) h.flag
  refine ⟨?_, ?_, ?_⟩
  · rw [hchunks, if_neg hadded]
  · rw [htombstones]
    simp [hadded]
  · rw [hsnapshot, if_neg fun hmem => hadded hmem.1]

end Persist

/-! ## The run that creates the overlay -/

/-- The snapshot of an overlay is that of the scan, with other hashes for files that
    vanished after it. -/
def Overlay.Records (overlay : Overlay) (xxh3 : Xxh3) (worktree : Checkout)
    (vanished : Str → Bool) : Prop :=
  ∀ key, ∃ hash : SourceFile → Str,
    (hash = (fun file => metadataFileHash xxh3 file.metadata) ∨
      hash = (fun _ => MerkleSnapshot.vanishedFileHash) ∧ vanished key = true) ∧
    overlay.snapshot.files[key]? = (worktree.scanned key).map fun file =>
      flaggedHash (hash file) (worktree.isIgnored key)

theorem persistOverlay_records {worktree : Checkout} {pending : MerkleSnapshot}
    {diff : MerkleDiff} {store : OverlayStore} {clear : List Str} {vanished : Str → Bool}
    (h : RunLists xxh3 worktree pending diff) :
    (persistOverlay xxh3 chunked base (readAfterScan worktree vanished) store clear diff
      pending).Records xxh3 worktree vanished := by
  intro key
  obtain ⟨-, -, hsnapshot⟩ := persistOverlay_spec xxh3 chunked base
    (readAfterScan worktree vanished) store clear diff pending key (worktree.isIgnored key) h.flag
  rw [hsnapshot, h.recorded]
  split
  · rename_i hmissing
    obtain ⟨file, hscanned⟩ := h.scanned hmissing.1
    have hvanished := hmissing.2
    rw [readAfterScan_of_scanned hscanned] at hvanished
    refine ⟨_, .inr ⟨rfl, ?_⟩, ?_⟩
    · cases hkey : vanished key with
      | true => rfl
      | false => simp [hkey] at hvanished
    · rw [hscanned]
      simp only [Option.map_some, endsWith_flaggedHash]
  · exact ⟨_, .inl rfl, rfl⟩

/-- A worktree entry that the base can serve: the live base lists a file under its key,
    with the recorded stamp and the same content hash. -/
theorem isInherited_eq_true {mainRoot : Checkout} {old : MerkleSnapshot} {key content : Str}
    (hold : MerkleSnapshot.buildContentBased xxh3 mainRoot = .ok old)
    (h : isInherited xxh3 mainRoot.opened base.snapshot old key content = true) :
    ∃ file, mainRoot.scanned key = some file ∧
      base.snapshot.files[key]? = some (flaggedHash (metadataFileHash xxh3 file.metadata)
        (Str.endsWith content "-1".toList)) ∧
      content = flaggedHash (hexDigest xxh3 (MerkleSnapshot.contentHashInput key file))
        (mainRoot.isIgnored key) := by
  unfold isInherited at h
  cases hindexed : base.snapshot.files[key]? with
  | none => simp [hindexed] at h
  | some indexed =>
    simp only [hindexed, Bool.and_eq_true, beq_iff_eq] at h
    obtain ⟨⟨hflag, hmatches⟩, hlive⟩ := h
    rw [buildContentBased_getElem? hold, Option.map_eq_some_iff] at hlive
    obtain ⟨file, hscanned, rfl⟩ := hlive
    obtain ⟨found, hfound, hhash⟩ := pathMatches_eq_true hmatches
    rw [mainRoot.opened_of_scanned hscanned] at hfound
    cases hfound
    refine ⟨file, hscanned, ?_, rfl⟩
    rw [← hflag, ← hhash]

/-- What a successful creation has done. -/
theorem createOverlay_eq_ok {mainRoot worktree : Checkout} {owners : Owners}
    {vanished : Str → Bool} {overlay : Overlay}
    (h : createOverlay xxh3 chunked base mainRoot worktree owners vanished = .ok overlay) :
    ∃ old pending new, MerkleSnapshot.buildContentBased xxh3 mainRoot = .ok old ∧
      MerkleSnapshot.buildCheckout xxh3 worktree = .ok pending ∧
      MerkleSnapshot.buildContentBased xxh3 worktree = .ok new ∧
      overlay = persistOverlay xxh3 chunked base (readAfterScan worktree vanished) ⟨∅, ∅⟩ []
        (addDependents owners pending worktree []
          (initialOverlayDiff xxh3 mainRoot.opened base.snapshot old new)) pending := by
  unfold createOverlay at h
  cases hold : MerkleSnapshot.buildContentBased xxh3 mainRoot with
  | error error => simp [hold, liftSnapshot, bind, Except.bind] at h
  | ok old =>
    cases hpending : MerkleSnapshot.buildCheckout xxh3 worktree with
    | error error => simp [hold, hpending, liftSnapshot, bind, Except.bind] at h
    | ok pending =>
      cases hnew : MerkleSnapshot.buildContentBased xxh3 worktree with
      | error error => simp [hold, hpending, hnew, liftSnapshot, bind, Except.bind] at h
      | ok new =>
        simp only [hold, hpending, hnew, liftSnapshot, bind, Except.bind] at h
        split at h
        · cases h
          exact ⟨old, pending, new, rfl, rfl, rfl, rfl⟩
        · cases h

/-- The changed files of a new overlay are worktree entries that the base cannot serve. -/
theorem mem_initialOverlayDiff {openedBase : Str → Option SourceFile}
    {indexed live new : MerkleSnapshot} {entry : Str × Bool} :
    entry ∈ (initialOverlayDiff xxh3 openedBase indexed live new).addedOrModified ↔
      ∃ hash, new.files[entry.1]? = some hash ∧
        isInherited xxh3 openedBase indexed live entry.1 hash = false ∧
        entry.2 = Str.endsWith hash "-1".toList := by
  unfold initialOverlayDiff
  simp only [List.mem_map, List.mem_filter, Bool.not_eq_true']
  constructor
  · intro hmem
    obtain ⟨pair, hpair, rfl⟩ := hmem
    exact ⟨pair.2, Std.ExtTreeMap.mem_toList_iff_getElem?_eq_some.mp hpair.1, hpair.2, rfl⟩
  · intro hmem
    obtain ⟨hash, hhash, hinherited, hflag⟩ := hmem
    refine ⟨(entry.1, hash), ⟨Std.ExtTreeMap.mem_toList_iff_getElem?_eq_some.mpr hhash,
      hinherited⟩, ?_⟩
    rw [← hflag]

/-- The deleted paths of a new overlay are the base paths that the worktree lacks. -/
theorem mem_initialOverlayDiff_deleted {openedBase : Str → Option SourceFile}
    {indexed live new : MerkleSnapshot} {key : Str} :
    key ∈ (initialOverlayDiff xxh3 openedBase indexed live new).deleted ↔
      key ∈ indexed.files ∧ new.files[key]? = none := by
  unfold initialOverlayDiff
  simp only [List.mem_filter, Bool.not_eq_true', Std.ExtTreeMap.map_fst_toList_eq_keys,
    Std.ExtTreeMap.mem_keys, Std.ExtTreeMap.contains_eq_isSome_getElem?,
    Option.isSome_eq_false_iff, Option.isNone_iff_eq_none]

section Create

variable {mainRoot worktree : Checkout} {owners : Owners} {vanished : Str → Bool}
  {overlay : Overlay} {old pending new : MerkleSnapshot}

variable (base mainRoot owners old) in
theorem createOverlay_runLists
    (hpending : MerkleSnapshot.buildCheckout xxh3 worktree = .ok pending)
    (hnew : MerkleSnapshot.buildContentBased xxh3 worktree = .ok new) :
    RunLists xxh3 worktree pending (addDependents owners pending worktree []
      (initialOverlayDiff xxh3 mainRoot.opened base.snapshot old new)) where
  recorded := buildCheckout_getElem? hpending
  changed := by
    intro entry hentry
    cases addDependents_spec.2.2 entry hentry with
    | inr hdependent => exact hdependent
    | inl hdiff =>
      obtain ⟨hash, hhash, -, hflag⟩ := mem_initialOverlayDiff.mp hdiff
      rw [buildContentBased_getElem? hnew, Option.map_eq_some_iff] at hhash
      obtain ⟨file, hscanned, rfl⟩ := hhash
      refine ⟨_, by rw [buildCheckout_getElem? hpending, hscanned, Option.map_some], ?_⟩
      rw [hflag, endsWith_flaggedHash, endsWith_flaggedHash]
  gone := by
    intro key hkey
    rw [addDependents_spec.1] at hkey
    obtain ⟨-, hnone⟩ := mem_initialOverlayDiff_deleted.mp hkey
    rw [buildContentBased_getElem? hnew, Option.map_eq_none_iff] at hnone
    rw [buildCheckout_getElem? hpending, hnone, Option.map_none]

/-- The run that creates an overlay leaves every path in a state that fits the worktree. -/
theorem createOverlay_pathState (hholds : base.Holds xxh3 chunked mainRoot)
    (hstamp : Stamped xxh3 contentOf worktree)
    (hcollision : ∀ key left right, mainRoot.scanned key = some left →
      worktree.scanned key = some right →
      xxh3 (MerkleSnapshot.contentHashInput key left) =
        xxh3 (MerkleSnapshot.contentHashInput key right) →
      MerkleSnapshot.contentHashInput key left = MerkleSnapshot.contentHashInput key right)
    (h : createOverlay xxh3 chunked base mainRoot worktree owners vanished = .ok overlay) :
    (∀ key, PathState xxh3 chunked base contentOf overlay key) ∧
      overlay.Records xxh3 worktree vanished := by
  obtain ⟨old, pending, new, hold, hpending, hnew, rfl⟩ := createOverlay_eq_ok h
  have hlists := createOverlay_runLists base mainRoot owners old hpending hnew
  refine ⟨?_, persistOverlay_records hlists⟩
  intro key
  by_cases hadded : key ∈ (addDependents owners pending worktree []
      (initialOverlayDiff xxh3 mainRoot.opened base.snapshot old new)).addedOrModified.map Prod.fst
  · apply persistOverlay_indexed hlists hstamp hadded
    intro hmem
    exact absurd hmem Std.ExtTreeMap.not_mem_empty
  · obtain ⟨hchunks, htombstones, hsnapshot⟩ := persistOverlay_not_indexed chunked base ⟨∅, ∅⟩ []
      vanished hlists hadded
    have hdeleted : key ∈ (initialOverlayDiff xxh3 mainRoot.opened base.snapshot old new).deleted ↔
        key ∈ base.snapshot.files ∧ worktree.scanned key = none := by
      rw [mem_initialOverlayDiff_deleted, buildContentBased_getElem? hnew, Option.map_eq_none_iff]
    rw [hlists.recorded] at hsnapshot
    simp only [addDependents_spec.1, hdeleted, List.not_mem_nil, or_false, not_false_eq_true,
      true_and, Std.ExtTreeMap.not_mem_empty, Std.ExtTreeMap.getElem?_empty, ite_self]
      at hchunks htombstones
    cases hscanned : worktree.scanned key with
    | none =>
      rw [hscanned] at hsnapshot
      apply PathState.gone hsnapshot hchunks
      rw [htombstones]
      by_cases hbase : key ∈ base.snapshot.files
      · simp [hbase, hscanned]
      · simp [hbase]
    | some file =>
      rw [hscanned] at hsnapshot
      -- A worktree file that the diff leaves out is served by the base.
      have hinherited : isInherited xxh3 mainRoot.opened base.snapshot old key
          (flaggedHash (hexDigest xxh3 (MerkleSnapshot.contentHashInput key file))
            (worktree.isIgnored key)) = true := by
        by_contra hnot
        rw [Bool.not_eq_true] at hnot
        apply hadded
        apply List.mem_map.mpr
        refine ⟨(key, worktree.isIgnored key), ?_, rfl⟩
        apply addDependents_spec.2.1
        apply mem_initialOverlayDiff.mpr
        refine ⟨_, by rw [buildContentBased_getElem? hnew, hscanned, Option.map_some], hnot, ?_⟩
        rw [endsWith_flaggedHash]
      obtain ⟨inherited, hlisted, hindexed, hsame⟩ := isInherited_eq_true hold hinherited
      rw [endsWith_flaggedHash] at hindexed
      have hinput := hcollision key inherited file hlisted hscanned
        (hexDigest_injective (flaggedHash_injective hsame).1).symm
      refine .inherited _ _ inherited.content hsnapshot hchunks ?_
        (hholds key inherited _ (mainRoot.opened_of_scanned hlisted) hindexed) ?_
      · rw [htombstones]
        simp [hscanned]
      · rw [← hstamp key file (worktree.opened_of_scanned hscanned)]
        exact List.append_cancel_left hinput

end Create

end Ivygrep.Native
