import Ivygrep.Spec.OverlayView

/-!
# Incremental updates of a worktree overlay

The lists that an update goes through, and the state in which it leaves every path.
-/

namespace Ivygrep.Native

variable {xxh3 : Xxh3} {chunked : Str → List UInt8 → Bool} {base : BaseIndex}
  {contentOf : Str → Str → List UInt8}

/-! ## The diff relative to the base -/

section Relative

variable {mainRoot : Option Checkout} {worktree : Checkout} {diff : MerkleDiff}

/-- Some live base checkout can serve a changed path again. -/
def ReturnsToBase (xxh3 : Xxh3) (base : BaseIndex) (mainRoot : Option Checkout)
    (worktree : Checkout) (entry : Str × Bool) : Prop :=
  ∃ root, mainRoot = some root ∧ returnsToBase xxh3 base root worktree entry.1 entry.2 = true

/-- Of the changed files, those that return to the base are left out. -/
theorem mem_relativeToBase_added {entry : Str × Bool} :
    entry ∈ (relativeToBase xxh3 base mainRoot worktree diff).1.addedOrModified ↔
      entry ∈ diff.addedOrModified ∧ ¬ReturnsToBase xxh3 base mainRoot worktree entry := by
  unfold relativeToBase ReturnsToBase
  cases mainRoot with
  | none => simp
  | some root => simp [List.mem_filter]

/-- Of the deleted paths, those that the base never had are left out. -/
theorem relativeToBase_deleted {key : Str} :
    (key ∈ (relativeToBase xxh3 base mainRoot worktree diff).1.deleted → key ∈ diff.deleted) ∧
    (key ∈ diff.deleted → key ∉ (relativeToBase xxh3 base mainRoot worktree diff).1.deleted →
      key ∈ (relativeToBase xxh3 base mainRoot worktree diff).2 ∧ key ∉ base.snapshot.files) := by
  unfold relativeToBase
  cases mainRoot with
  | none =>
    refine ⟨id, ?_⟩
    intro hmem hnot
    exact absurd hmem hnot
  | some root =>
    simp only [List.mem_filter, List.mem_append, Bool.not_eq_true', ← Bool.not_eq_true,
      pathExistsInBase_iff]
    refine ⟨And.left, ?_⟩
    intro hmem hnot
    have hbase : key ∉ base.snapshot.files := fun hbase => hnot ⟨hmem, hbase⟩
    exact ⟨.inr ⟨hmem, hbase⟩, hbase⟩

/-- The cleared paths return to the base, or are gone and never were in it. -/
theorem mem_relativeToBase_clear {key : Str} :
    key ∈ (relativeToBase xxh3 base mainRoot worktree diff).2 →
      (∃ isIgnored, (key, isIgnored) ∈ diff.addedOrModified ∧
        ReturnsToBase xxh3 base mainRoot worktree (key, isIgnored)) ∨ key ∈ diff.deleted := by
  unfold relativeToBase ReturnsToBase
  cases mainRoot with
  | none => simp
  | some root =>
    intro hmem
    cases List.mem_append.mp hmem with
    | inl hreturns =>
      obtain ⟨entry, hentry, rfl⟩ := List.mem_map.mp hreturns
      obtain ⟨hadded, hreturn⟩ := List.mem_filter.mp hentry
      exact .inl ⟨entry.2, hadded, root, rfl, hreturn⟩
    | inr hdeleted => exact .inr (List.mem_filter.mp hdeleted).1

/-- A path that returns to the base is cleared. -/
theorem clear_of_returnsToBase {entry : Str × Bool} (hmem : entry ∈ diff.addedOrModified)
    (h : ReturnsToBase xxh3 base mainRoot worktree entry) :
    entry.1 ∈ (relativeToBase xxh3 base mainRoot worktree diff).2 := by
  obtain ⟨root, rfl, hreturn⟩ := h
  apply List.mem_append_left
  apply List.mem_map_of_mem
  exact List.mem_filter.mpr ⟨hmem, hreturn⟩

/-- The base rows of a path that returns to the base are made of a file with the
    content of the worktree's own file, up to line endings. -/
theorem base_row_of_returnsToBase {root : Checkout} {key : Str} {isIgnored : Bool}
    {file : SourceFile} (hholds : base.Holds xxh3 chunked root)
    (hscanned : worktree.scanned key = some file)
    (h : returnsToBase xxh3 base root worktree key isIgnored = true) :
    ∃ content, base.rows[key]? = indexFile chunked key content isIgnored ∧
      normalizedIndexableContent content = normalizedIndexableContent file.content := by
  unfold returnsToBase at h
  cases hhash : base.snapshot.files[key]? with
  | none => simp [hhash] at h
  | some hash =>
    simp only [hhash, Bool.and_eq_true, beq_iff_eq] at h
    obtain ⟨⟨hmatches, hflag⟩, hsame⟩ := h
    obtain ⟨found, hfound, hstamp⟩ := pathMatches_eq_true hmatches
    rw [hflag] at hstamp
    rw [hfound, worktree.opened_of_scanned hscanned] at hsame
    refine ⟨found.content, hholds key found isIgnored hfound (by rw [hhash, hstamp]), ?_⟩
    simp only [filesHaveSameContents, Option.map_some, Bool.or_eq_true, beq_iff_eq] at hsame
    cases hsame with
    | inl heq => rw [heq]
    | inr heq => exact heq.symm

end Relative

/-! ## The run -/

section Update

variable {mainRoot : Option Checkout} {worktree : Checkout} {owners : Owners}
  {vanished : Str → Bool} {overlay next : Overlay} {new : MerkleSnapshot}
  {relative : MerkleDiff × List Str}

/-- What a successful update has done: nothing, or a run over the relative diff. -/
theorem updateOverlay_eq_ok
    (h : updateOverlay xxh3 chunked base mainRoot worktree owners vanished overlay = .ok next) :
    ∃ new, MerkleSnapshot.buildCheckout xxh3 worktree = .ok new ∧
      ((next = overlay ∧ (overlay.snapshot.diff new).addedOrModified = [] ∧
          (overlay.snapshot.diff new).deleted = []) ∨
        next = persistOverlay xxh3 chunked base (readAfterScan worktree vanished) overlay.store
          (relativeToBase xxh3 base mainRoot worktree (overlay.snapshot.diff new)).2
          (addDependents owners new worktree
            (relativeToBase xxh3 base mainRoot worktree (overlay.snapshot.diff new)).2
            (relativeToBase xxh3 base mainRoot worktree (overlay.snapshot.diff new)).1) new) := by
  unfold updateOverlay at h
  cases hnew : MerkleSnapshot.buildCheckout xxh3 worktree with
  | error error => simp [hnew, liftSnapshot, bind, Except.bind] at h
  | ok new =>
    refine ⟨new, rfl, ?_⟩
    simp only [hnew, liftSnapshot, bind, Except.bind] at h
    split at h
    · rename_i hempty
      cases h
      simp only [Bool.and_eq_true, List.isEmpty_iff] at hempty
      obtain ⟨⟨hadded, hdeleted⟩, hclear⟩ := hempty
      refine .inl ⟨rfl, ?_, ?_⟩
      · -- A changed file is kept in the diff, or its path is cleared.
        apply List.eq_nil_iff_forall_not_mem.mpr
        intro entry hentry
        by_cases hreturns : ReturnsToBase xxh3 base mainRoot worktree entry
        · have hmem := clear_of_returnsToBase hentry hreturns
          rw [hclear] at hmem
          cases hmem
        · have hmem := mem_relativeToBase_added.mpr ⟨hentry, hreturns⟩
          rw [hadded] at hmem
          cases hmem
      · apply List.eq_nil_iff_forall_not_mem.mpr
        intro key hkey
        have hmem := relativeToBase_deleted.2 hkey (by rw [hdeleted]; exact List.not_mem_nil)
        rw [hclear] at hmem
        cases hmem.1
    · cases h
      exact .inr rfl

variable (base mainRoot owners) in
theorem updateOverlay_runLists (hnew : MerkleSnapshot.buildCheckout xxh3 worktree = .ok new)
    (hdiff : (overlay.snapshot.diff new).Describes overlay.snapshot.files new.files)
    (clear : List Str) :
    RunLists xxh3 worktree new (addDependents owners new worktree clear
      (relativeToBase xxh3 base mainRoot worktree (overlay.snapshot.diff new)).1) where
  recorded := buildCheckout_getElem? hnew
  changed := by
    intro entry hentry
    cases addDependents_spec.2.2 entry hentry with
    | inr hdependent => exact hdependent
    | inl hadded =>
      obtain ⟨hash, hhash, -, hflag⟩ :=
        (hdiff.mem_added entry.1 entry.2).mp (mem_relativeToBase_added.mp hadded).1
      exact ⟨hash, hhash, hflag⟩
  gone := by
    intro key hkey
    rw [addDependents_spec.1] at hkey
    exact ((hdiff.mem_deleted key).mp (relativeToBase_deleted.1 hkey)).2

/-- A path that a diff does not list has the same hash in both snapshots. -/
theorem MerkleDiff.Describes.hash_eq {diff : MerkleDiff} {older newer : BTreeMap Str Str}
    {key : Str} (h : diff.Describes older newer)
    (hadded : ∀ isIgnored, (key, isIgnored) ∉ diff.addedOrModified) (hdeleted : key ∉ diff.deleted) :
    newer[key]? = older[key]? := by
  cases hnewer : newer[key]? with
  | none =>
    by_contra hne
    exact hdeleted ((h.mem_deleted key).mpr ⟨Ne.symm hne, hnewer⟩)
  | some hash =>
    by_contra hne
    exact hadded _ ((h.mem_added key _).mpr ⟨hash, hnewer, Ne.symm hne, rfl⟩)

/-- A path that an update does not index: it is gone, returns to the base, or stays. -/
theorem updateOverlay_not_indexed {key : Str}
    (hholds : ∀ root, mainRoot = some root → base.Holds xxh3 chunked root)
    (hstamp : Stamped xxh3 contentOf worktree)
    (hnew : MerkleSnapshot.buildCheckout xxh3 worktree = .ok new)
    (hdiff : (overlay.snapshot.diff new).Describes overlay.snapshot.files new.files)
    (hstate : PathState xxh3 chunked base contentOf overlay key)
    (hrelative : relativeToBase xxh3 base mainRoot worktree (overlay.snapshot.diff new) = relative)
    (hadded : key ∉ relative.1.addedOrModified.map Prod.fst)
    (hsnapshot : next.snapshot.files[key]? = new.files[key]?)
    (hchunks : next.store.chunks[key]? =
      if key ∈ relative.1.deleted ∨ key ∈ relative.2 then none else overlay.store.chunks[key]?)
    (htombstones : key ∈ next.store.tombstones ↔
      if key ∈ relative.1.deleted then key ∈ base.snapshot.files
      else key ∉ relative.2 ∧ key ∈ overlay.store.tombstones) :
    PathState xxh3 chunked base contentOf next key := by
  subst hrelative
  by_cases hdeleted : key ∈ (overlay.snapshot.diff new).deleted
  · -- The path is gone from the worktree.
    have hnone := ((hdiff.mem_deleted key).mp hdeleted).2
    by_cases hlisted : key ∈ (relativeToBase xxh3 base mainRoot worktree
        (overlay.snapshot.diff new)).1.deleted
    · rw [if_pos (.inl hlisted)] at hchunks
      rw [if_pos hlisted] at htombstones
      exact .gone (hsnapshot.trans hnone) hchunks htombstones
    · obtain ⟨hclear, hbase⟩ := relativeToBase_deleted.2 hdeleted hlisted
      rw [if_pos (.inr hclear)] at hchunks
      rw [if_neg hlisted] at htombstones
      apply PathState.gone (hsnapshot.trans hnone) hchunks
      rw [htombstones]
      simp [hclear, hbase]
  · have hlisted : key ∉ (relativeToBase xxh3 base mainRoot worktree
        (overlay.snapshot.diff new)).1.deleted :=
      fun hmem => hdeleted (relativeToBase_deleted.1 hmem)
    by_cases hchanged : ∃ isIgnored, (key, isIgnored) ∈ (overlay.snapshot.diff new).addedOrModified
    · -- A changed file that is left out of the diff returns to the base.
      obtain ⟨isIgnored, hmem⟩ := hchanged
      have hreturns : ReturnsToBase xxh3 base mainRoot worktree (key, isIgnored) := by
        by_contra hnot
        apply hadded
        exact List.mem_map.mpr ⟨_, mem_relativeToBase_added.mpr ⟨hmem, hnot⟩, rfl⟩
      have hclear := clear_of_returnsToBase hmem hreturns
      rw [if_pos (.inr hclear)] at hchunks
      rw [if_neg hlisted] at htombstones
      obtain ⟨hash, hhash, -, hflag⟩ := (hdiff.mem_added key isIgnored).mp hmem
      rw [buildCheckout_getElem? hnew, Option.map_eq_some_iff] at hhash
      obtain ⟨file, hscanned, rfl⟩ := hhash
      unfold isIgnoredHash at hflag
      rw [endsWith_flaggedHash] at hflag
      subst hflag
      obtain ⟨root, hmain, hreturn⟩ := hreturns
      obtain ⟨content, hrow, hcontent⟩ :=
        base_row_of_returnsToBase (hholds root hmain) hscanned hreturn
      rw [buildCheckout_getElem? hnew, hscanned, Option.map_some] at hsnapshot
      refine .inherited _ _ content hsnapshot hchunks ?_ hrow ?_
      · rw [htombstones]
        exact fun hmem => hmem.1 hclear
      · rw [hcontent, ← hstamp key file (worktree.opened_of_scanned hscanned)]
    · -- The path did not change, and no list has it.
      have hsame : ∀ isIgnored, (key, isIgnored) ∉ (overlay.snapshot.diff new).addedOrModified :=
        fun isIgnored hmem => hchanged ⟨isIgnored, hmem⟩
      have hclear : key ∉ (relativeToBase xxh3 base mainRoot worktree
          (overlay.snapshot.diff new)).2 := by
        intro hmem
        cases mem_relativeToBase_clear hmem with
        | inl hreturns => exact hsame _ hreturns.choose_spec.1
        | inr hgone => exact hdeleted hgone
      rw [if_neg (not_or.mpr ⟨hlisted, hclear⟩)] at hchunks
      rw [if_neg hlisted] at htombstones
      apply hstate.congr (hsnapshot.trans (hdiff.hash_eq hsame hdeleted)) hchunks
      rw [htombstones]
      exact and_iff_right hclear

/-- An update keeps every path in a state that fits the worktree as it is now. -/
theorem updateOverlay_pathState
    (hholds : ∀ root, mainRoot = some root → base.Holds xxh3 chunked root)
    (hstamp : Stamped xxh3 contentOf worktree)
    (hroot : ∀ new, MerkleSnapshot.buildCheckout xxh3 worktree = .ok new →
      overlay.snapshot.rootHash = new.rootHash → overlay.snapshot.files = new.files)
    (hstate : ∀ key, PathState xxh3 chunked base contentOf overlay key)
    (h : updateOverlay xxh3 chunked base mainRoot worktree owners vanished overlay = .ok next) :
    (∀ key, PathState xxh3 chunked base contentOf next key) ∧
      next.Records xxh3 worktree vanished := by
  obtain ⟨new, hnew, hcases⟩ := updateOverlay_eq_ok h
  have hdiff := MerkleSnapshot.diff_describes (hroot new hnew)
  cases hcases with
  | inl hnoop =>
    obtain ⟨rfl, hadded, hdeleted⟩ := hnoop
    refine ⟨hstate, ?_⟩
    intro key
    refine ⟨_, .inl rfl, ?_⟩
    rw [← buildCheckout_getElem? hnew]
    refine (hdiff.hash_eq ?_ ?_).symm
    · simp [hadded]
    · simp [hdeleted]
  | inr hrun =>
    generalize hrelative : relativeToBase xxh3 base mainRoot worktree
      (overlay.snapshot.diff new) = relative at hrun
    have hlists := updateOverlay_runLists base mainRoot owners hnew hdiff relative.2
    rw [hrelative] at hlists
    refine ⟨?_, hrun ▸ persistOverlay_records hlists⟩
    intro key
    by_cases hadded : key ∈ (addDependents owners new worktree relative.2
        relative.1).addedOrModified.map Prod.fst
    · rw [hrun]
      exact persistOverlay_indexed hlists hstamp hadded (hstate key).mem_base
    · obtain ⟨hchunks, htombstones, hsnapshot⟩ := persistOverlay_not_indexed chunked base
        overlay.store relative.2 vanished hlists hadded
      rw [← hrun] at hchunks htombstones hsnapshot
      apply updateOverlay_not_indexed hholds hstamp hnew hdiff (hstate key) hrelative ?_ hsnapshot
        hchunks htombstones
      intro hmem
      obtain ⟨entry, hentry, hkey⟩ := List.mem_map.mp hmem
      exact hadded (List.mem_map.mpr ⟨entry, addDependents_spec.2.1 entry hentry, hkey⟩)

end Update

end Ivygrep.Native
