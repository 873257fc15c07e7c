import Ivygrep.Spec.StagingLoops

/-!
# Staged promotion is all-or-nothing

`promote` and `promoteOverlay` either publish the staged generation or leave every
artifact as it was, and no crash during `promoteOverlay` leaves a mixture under a live
`workspace.json`.

## Key results

- `promote_all_or_nothing`: both promotions, for every fault
- `promoteOverlay_crash_safe`: every tree in the course of `promoteOverlay`
-/

namespace Ivygrep.Native

open ForStd (Ends attempt)
open ForStd.FileTree (Apart Moved SameOutside)

/-! ## The plans of the two promotions -/

/-- The names of a store's artifacts, and those that a promotion publishes. A staged
    file has the name of the artifact that it becomes. -/
structure Layout where
  artifacts : List Str
  promoted : List Str
  artifacts_nodup : artifacts.Nodup
  promoted_nodup : promoted.Nodup
  promoted_mem : ∀ name ∈ promoted, name ∈ artifacts
  not_reserved : ∀ name ∈ artifacts, ¬ ".fresh-index-".toList <+: name

theorem stagingDirPrefix_eq :
    stagingDirPrefix = ".fresh-index-".toList ++ 's' :: "taging-".toList := by decide +kernel

theorem backupDirPrefix_eq :
    backupDirPrefix = ".fresh-index-".toList ++ 'b' :: "ackup-".toList := by decide +kernel

/-- The last components of paths. -/
def names (paths : List Path) : List Str := paths.map fun path => path.getLastD []

def mainLayout : Layout where
  artifacts := names (mainStoreArtifacts ⟨[]⟩)
  promoted := ["index_incarnation", "metadata.sqlite3", "tantivy", "vectors.usearch"].map
    String.toList
  artifacts_nodup := by decide +kernel
  promoted_nodup := by decide +kernel
  promoted_mem := by decide +kernel
  not_reserved := by decide +kernel

def overlayLayout (verified : Bool) : Layout where
  artifacts := names (overlayStoreArtifacts ⟨[]⟩)
  promoted := (["index_incarnation", "overlay.sqlite3", "overlay_tantivy",
    "overlay_vectors.usearch", "base_ref.json", "merkle_snapshot.json",
    "index_format_version"] ++ (if verified then ["merkle_snapshot.verified"] else []) ++
    ["workspace.json"]).map String.toList
  artifacts_nodup := by decide +kernel
  promoted_nodup := by cases verified <;> decide +kernel
  promoted_mem := by cases verified <;> decide +kernel
  not_reserved := by decide +kernel

/-- The plan of a promotion that starts from the tree `start`. -/
def Layout.plan (layout : Layout) (workspace : Workspace) (pid unique : Nat)
    (incarnation backupId : Str) (start : FileTree) : Plan where
  indexDir := workspace.indexDir
  stagingName := stagingDirPrefix ++ decimal pid ++ '-' :: decimal unique
  backupName := backupDirPrefix ++ backupId
  artifacts := layout.artifacts.map fun name => workspace.indexDir ++ [name]
  promotions := layout.promoted.map fun name =>
    ((FreshIndexStaging.create workspace pid unique).dir ++ [name], workspace.indexDir ++ [name])
  old := start.get
  source := fun path =>
    if path = (FreshIndexStaging.create workspace pid unique).stagedIncarnation then
      some (.file (Str.bytes incarnation))
    else start.get path
  name_ne := by
    intro heq
    rw [stagingDirPrefix_eq, backupDirPrefix_eq, List.append_assoc, List.append_assoc,
      List.append_assoc, List.append_right_inj, List.cons_append, List.cons_append,
      List.cons.injEq] at heq
    exact absurd heq.1 (by decide)
  artifact_eq := by
    intro a ha
    obtain ⟨name, hname, rfl⟩ := List.mem_map.mp ha
    have hreserved := layout.not_reserved name hname
    refine ⟨name, rfl, ?_, ?_⟩
    · intro heq
      rw [heq, stagingDirPrefix_eq, List.append_assoc, List.append_assoc] at hreserved
      exact hreserved (List.prefix_append _ _)
    · intro heq
      rw [heq, backupDirPrefix_eq, List.append_assoc] at hreserved
      exact hreserved (List.prefix_append _ _)
  artifacts_nodup := layout.artifacts_nodup.map fun m n h => by simpa using h
  live_mem := by
    intro p hp
    obtain ⟨name, hname, rfl⟩ := List.mem_map.mp hp
    exact List.mem_map_of_mem (layout.promoted_mem name hname)
  live_nodup := by
    rw [List.map_map]
    exact layout.promoted_nodup.map fun m n h => by simpa using h
  staged_eq := by
    intro p hp
    obtain ⟨name, hname, rfl⟩ := List.mem_map.mp hp
    exact ⟨name, by simp [FreshIndexStaging.create]⟩
  staged_nodup := by
    rw [List.map_map]
    exact layout.promoted_nodup.map fun m n h => by simpa using h

section Plans

variable (workspace : Workspace) (pid unique : Nat) (incarnation backupId : Str)
  (start : FileTree)

theorem withExtension_append (dir : Path) (name extension : Str) :
    withExtension (dir ++ [name]) extension =
      dir ++ [(withExtension [name] extension).getLastD []] := by
  simp [withExtension]

theorem sqliteSidecarPath_append (dir : Path) (name suffix : Str) :
    sqliteSidecarPath (dir ++ [name]) suffix =
      dir ++ [(sqliteSidecarPath [name] suffix).getLastD []] := by
  simp [sqliteSidecarPath]

/-- The artifacts of a workspace are named as those of a workspace at the root. -/
theorem mainStoreArtifacts_eq :
    mainStoreArtifacts workspace =
      mainLayout.artifacts.map fun name => workspace.indexDir ++ [name] := by
  simp only [mainLayout, names, mainStoreArtifacts, Workspace.join,
    Workspace.indexIncarnationPath, Workspace.sqlitePath, Workspace.tantivyDir,
    Workspace.vectorPath, Workspace.vectorNeuralPath, Workspace.neuralModelPath,
    Workspace.neuralProfilePath, Workspace.neuralBackendPath, Workspace.hashTombstonesPath,
    Workspace.hashTombstonesProcessingPath, Workspace.hashEnhancedGenerationPath,
    Workspace.neuralTombstonesPath, Workspace.neuralTombstonesProcessingPath,
    Workspace.neuralEnhancedGenerationPath, withExtension_append, sqliteSidecarPath_append,
    List.map_cons, List.map_nil, List.nil_append, List.getLastD_cons, List.getLastD_nil]

theorem overlayStoreArtifacts_eq (verified : Bool) :
    overlayStoreArtifacts workspace =
      (overlayLayout verified).artifacts.map fun name => workspace.indexDir ++ [name] := by
  simp only [overlayLayout, names, overlayStoreArtifacts, Workspace.join,
    Workspace.metadataPath, Workspace.indexIncarnationPath, Workspace.overlaySqlitePath,
    Workspace.overlayTantivyDir, Workspace.overlayVectorPath, Workspace.vectorNeuralPath,
    Workspace.neuralModelPath, Workspace.neuralProfilePath, Workspace.neuralBackendPath,
    Workspace.hashTombstonesPath, Workspace.hashTombstonesProcessingPath,
    Workspace.hashEnhancedGenerationPath, Workspace.neuralTombstonesPath,
    Workspace.neuralTombstonesProcessingPath, Workspace.neuralEnhancedGenerationPath,
    Workspace.baseRefPath, Workspace.merkleSnapshotPath, Workspace.indexFormatVersionPath,
    withExtension_append, sqliteSidecarPath_append,
    List.map_cons, List.map_nil, List.nil_append, List.getLastD_cons, List.getLastD_nil]

theorem mainPromotions_eq :
    let staging := FreshIndexStaging.create workspace pid unique
    (staging.stagedIncarnation, workspace.indexIncarnationPath) ::
        staging.mainPromotions workspace =
      (mainLayout.plan workspace pid unique incarnation backupId start).promotions := by
  rfl

theorem verified_extension (workspace : Workspace) :
    withExtension workspace.merkleSnapshotPath "verified".toList =
      workspace.indexDir ++ ["merkle_snapshot.verified".toList] := by
  have hname : (withExtension ["merkle_snapshot.json".toList] "verified".toList).getLastD [] =
      "merkle_snapshot.verified".toList := by decide +kernel
  unfold Workspace.merkleSnapshotPath Workspace.join
  rw [withExtension_append, hname]

theorem overlayPromotions_eq (verified : Bool) :
    let staging := FreshIndexStaging.createOverlay workspace pid unique
    (staging.stagedIncarnation, workspace.indexIncarnationPath) ::
        staging.overlayPromotions workspace verified =
      ((overlayLayout verified).plan workspace pid unique incarnation backupId
        start).promotions := by
  simp only [FreshIndexStaging.overlayPromotions, verified_extension]
  cases verified <;> rfl

/-- The plan of `promote`. -/
theorem main_describes :
    (mainLayout.plan workspace pid unique incarnation backupId start).Describes
      (FreshIndexStaging.create workspace pid unique) workspace incarnation backupId
      (mainStoreArtifacts workspace)
      ((FreshIndexStaging.create workspace pid unique).mainPromotions workspace) start where
  dir := rfl
  backupDir := rfl
  artifacts := mainStoreArtifacts_eq workspace
  promotions := mainPromotions_eq workspace pid unique incarnation backupId start
  old := rfl
  source := rfl

/-- The plan of `promoteOverlay`. -/
theorem overlay_describes (verified : Bool) :
    ((overlayLayout verified).plan workspace pid unique incarnation backupId start).Describes
      (FreshIndexStaging.createOverlay workspace pid unique) workspace incarnation backupId
      (overlayStoreArtifacts workspace)
      ((FreshIndexStaging.createOverlay workspace pid unique).overlayPromotions workspace verified)
      start where
  dir := rfl
  backupDir := rfl
  artifacts := overlayStoreArtifacts_eq workspace verified
  promotions := overlayPromotions_eq workspace pid unique incarnation backupId start verified
  old := rfl
  source := rfl

end Plans

/-! ## Outcomes of the two promotions -/

/-- Before a promotion, its plan knows one stage only. -/
theorem Plan.allStages_of_old {plan : Plan} {start : FileTree} (hold : plan.old = start.get) :
    plan.AllStages ⟨start, []⟩ := by
  intro tree htree
  have heq : tree = start := by simpa [Disk.states] using htree
  refine ⟨[], [], [], .preserve List.nil_prefix, Plan.Live.of_old ?_ ?_⟩
  · intro a _
    rw [heq, hold]
  · intro path _
    rw [heq, hold]

theorem ensureStaged_ends {disk : Disk} (promotions : List (Path × Path)) :
    Ends (FreshIndexStaging.ensureStaged promotions) disk (fun _ new => new = disk)
      (fun _ new => new = disk) := by
  induction promotions with
  | nil => exact Ends.pure rfl
  | cons promotion promotions ih =>
    unfold FreshIndexStaging.ensureStaged
    exact Plan.ensure_read_ends ⟨_, rfl⟩ (fun _ => rfl) ih

section Outcomes

variable (faults : Faults) (workspace : Workspace) (pid unique : Nat)
  (incarnation backupId : Str) (start : FileTree)

theorem promote_ends :
    let plan := mainLayout.plan workspace pid unique incarnation backupId start
    Ends ((FreshIndexStaging.create workspace pid unique).promote faults workspace incarnation
      backupId) ⟨start, []⟩ (fun _ new => plan.Succeeded new)
      (fun _ new => plan.Aborted faults new) := by
  have hplan := main_describes workspace pid unique incarnation backupId start
  unfold FreshIndexStaging.promote
  apply Plan.dropUnlessPromoted_ends hplan.dir
  exact Plan.promoteArtifacts_ends hplan (Plan.allStages_of_old hplan.old)

/-- Whether the staged snapshot has its verification marker. -/
def stagedVerified : Bool :=
  start.isFile (withExtension
    (FreshIndexStaging.createOverlay workspace pid unique).workspace.merkleSnapshotPath
    "verified".toList)

theorem promoteOverlay_ends :
    let plan := (overlayLayout (stagedVerified workspace pid unique start)).plan workspace pid
      unique incarnation backupId start
    Ends ((FreshIndexStaging.createOverlay workspace pid unique).promoteOverlay faults workspace
      incarnation backupId) ⟨start, []⟩ (fun _ new => plan.Succeeded new)
      (fun _ new => plan.Aborted faults new) := by
  have hplan := overlay_describes workspace pid unique incarnation backupId start
    (stagedVerified workspace pid unique start)
  have hall := Plan.allStages_of_old hplan.old
  unfold FreshIndexStaging.promoteOverlay
  apply Plan.dropUnlessPromoted_ends hplan.dir
  refine Ends.bind (fun verified new => new = ⟨start, []⟩ ∧
    verified = stagedVerified workspace pid unique start) ⟨rfl, rfl⟩ ?_
  intro verified disk hout
  obtain ⟨hdisk, hverified⟩ := hout
  rw [hdisk, hverified]
  refine Ends.bind (fun _ new => new = ⟨start, []⟩) ?_ ?_
  · apply (ensureStaged_ends _).mono
    · intro _ _ hsame
      exact hsame
    · intro _ _ hsame
      rw [hsame]
      exact hplan.aborted hall
  · intro _ new hnew
    rw [hnew]
    exact Plan.promoteArtifacts_ends hplan hall

end Outcomes

/-! ## All or nothing -/

/-- The rollback's own renames and removals succeed. -/
structure RollbackSucceeds (faults : Faults) (artifacts : List Path) (backupDir : Path) :
    Prop where
  restore : ∀ a ∈ artifacts, ∀ index, ¬ faults.fails (.rename (backupDir ++ [decimal index]) a)
  remove : ∀ a ∈ artifacts, ¬ faults.RemovalFails a

/-- In `now`, each artifact that `promotions` publish holds what was staged for it in
    `start`, the identity is the new one, and the other artifacts are absent. -/
structure Published (workspace : Workspace) (incarnation : Str) (artifacts : List Path)
    (promotions : List (Path × Path)) (start now : FileTree) : Prop where
  promoted : ∀ p ∈ promotions, now.get p.2 = start.get p.1 ∧ (start.get p.1).isSome
  incarnation : now.get workspace.indexIncarnationPath = some (.file (Str.bytes incarnation))
  absent : ∀ a ∈ artifacts, a ≠ workspace.indexIncarnationPath → a ∉ promotions.map Prod.snd →
    now.get a = none

/-- `run` publishes the staged generation, or leaves every artifact as it was. Either way
    it touches nothing outside the artifacts, the staging directory and the backup
    directory. -/
structure AllOrNothing (run : Fs Unit) (workspace : Workspace) (stagingDir : Path)
    (incarnation backupId : Str) (artifacts : List Path) (promotions : List (Path × Path))
    (start : FileTree) : Prop where
  error : ∀ e disk, run ⟨start, []⟩ = .error e disk →
    ∀ a ∈ artifacts, disk.now.get a = start.get a
  ok : ∀ disk, run ⟨start, []⟩ = .ok () disk →
    Published workspace incarnation artifacts promotions start disk.now
  untouched : ∀ disk, (run ⟨start, []⟩ = .ok () disk ∨ ∃ e, run ⟨start, []⟩ = .error e disk) →
    ∀ path, (∀ a ∈ artifacts, Apart a path) → Apart stagingDir path →
      Apart (FreshIndexStaging.backupDir workspace backupId) path →
      disk.now.get path = start.get path

section Assembly

variable {plan : Plan} {staging : FreshIndexStaging} {workspace : Workspace}
  {incarnation backupId : Str} {artifacts : List Path} {promotions : List (Path × Path)}
  {start : FileTree} {faults : Faults}

/-- Everything promoted is the generation of the staging directory. -/
theorem published_of_live {tree : FileTree}
    (hplan : plan.Describes staging workspace incarnation backupId artifacts promotions start)
    (hlive : plan.Live tree plan.backups plan.promotions []) :
    Published workspace incarnation artifacts promotions start tree := by
  have hfirst : (staging.stagedIncarnation, workspace.indexIncarnationPath) ∈
      plan.promotions := by
    rw [← hplan.promotions]
    exact List.mem_cons_self
  have hstaged := plan.staged_nodup
  rw [← hplan.promotions, List.map_cons, List.nodup_cons] at hstaged
  constructor
  · intro p hp
    have hmem : p ∈ plan.promotions := by
      rw [← hplan.promotions]
      exact List.mem_cons_of_mem _ hp
    have hne : p.1 ≠ staging.stagedIncarnation := by
      intro heq
      apply hstaged.1
      show staging.stagedIncarnation ∈ promotions.map Prod.fst
      rw [← heq]
      exact List.mem_map_of_mem hp
    have hfresh := hlive.fresh p hmem
    rw [hplan.source] at hfresh
    simpa only [if_neg hne] using hfresh
  · have hfresh := (hlive.fresh _ hfirst).1
    rw [hplan.source] at hfresh
    simpa only [if_true] using hfresh
  · intro a ha hne hnot
    rw [hplan.artifacts] at ha
    apply hlive.none_of_moved ha _ (by simp)
    rw [← hplan.promotions, List.map_cons, List.mem_cons, not_or]
    exact ⟨hne, hnot⟩

theorem not_rollbackFails
    (hplan : plan.Describes staging workspace incarnation backupId artifacts promotions start)
    (h : RollbackSucceeds faults artifacts (FreshIndexStaging.backupDir workspace backupId)) :
    ¬ plan.RollbackFails faults := by
  rw [hplan.artifacts, hplan.backupDir] at h
  intro hfails
  cases hfails with
  | inl hrestore =>
    obtain ⟨a, ha, index, hfail⟩ := hrestore
    exact h.restore a ha index hfail
  | inr hremove =>
    obtain ⟨p, hp, hfail⟩ := hremove
    exact h.remove p.2 (plan.live_mem p hp) hfail

theorem allOrNothing_of_ends {run : Fs Unit}
    (hplan : plan.Describes staging workspace incarnation backupId artifacts promotions start)
    (hrollback : RollbackSucceeds faults artifacts
      (FreshIndexStaging.backupDir workspace backupId))
    (hends : Ends run ⟨start, []⟩ (fun _ new => plan.Succeeded new)
      (fun _ new => plan.Aborted faults new)) :
    AllOrNothing run workspace staging.dir incarnation backupId artifacts promotions start := by
  have habort : ∀ {e disk}, run ⟨start, []⟩ = .error e disk → plan.Live disk.now [] [] [] := by
    intro e disk hrun
    exact (hends.of_error hrun).2.resolve_right (not_rollbackFails hplan hrollback)
  constructor
  · intro e disk hrun a ha
    rw [hplan.artifacts] at ha
    rw [(habort hrun).kept a ha (by simp) (by simp) (by simp), hplan.old]
  · intro disk hrun
    exact published_of_live hplan (hends.of_ok hrun).1
  · intro disk hrun path hartifacts hstaging hbackup
    have houtside : plan.Outside path := by
      rw [hplan.artifacts] at hartifacts
      exact ⟨hartifacts, hplan.dir ▸ hstaging, hplan.backupDir ▸ hbackup⟩
    cases hrun with
    | inl hok => rw [(hends.of_ok hok).1.outside path houtside, hplan.old]
    | inr herror => rw [(habort herror.choose_spec).outside path houtside, hplan.old]

end Assembly

/-- Both promotions are all-or-nothing, whichever steps fail, as long as the rollback's
    own steps succeed. -/
theorem promote_all_or_nothing (faults : Faults) (workspace : Workspace) (pid unique : Nat)
    (incarnation backupId : Str) (start : FileTree)
    (hmain : RollbackSucceeds faults (mainStoreArtifacts workspace)
      (FreshIndexStaging.backupDir workspace backupId))
    (hoverlay : RollbackSucceeds faults (overlayStoreArtifacts workspace)
      (FreshIndexStaging.backupDir workspace backupId)) :
    (let staging := FreshIndexStaging.create workspace pid unique
     AllOrNothing (staging.promote faults workspace incarnation backupId) workspace staging.dir
      incarnation backupId (mainStoreArtifacts workspace) (staging.mainPromotions workspace)
      start) ∧
    (let staging := FreshIndexStaging.createOverlay workspace pid unique
     AllOrNothing (staging.promoteOverlay faults workspace incarnation backupId) workspace
      staging.dir incarnation backupId (overlayStoreArtifacts workspace)
      (staging.overlayPromotions workspace (stagedVerified workspace pid unique start))
      start) := by
  constructor
  · exact allOrNothing_of_ends (main_describes workspace pid unique incarnation backupId start)
      hmain (promote_ends faults workspace pid unique incarnation backupId start)
  · exact allOrNothing_of_ends
      (overlay_describes workspace pid unique incarnation backupId start _) hoverlay
      (promoteOverlay_ends faults workspace pid unique incarnation backupId start)

/-- A machine on which nothing fails. -/
def noFaults : Faults := ⟨fun _ => false, fun _ => []⟩

private def sampleWorkspace : Workspace := ⟨["index".toList]⟩

/-- A main store of one file, and a complete staging directory. -/
private def sampleIndexTree : FileTree :=
  .dir [("index".toList, .dir [
    ("metadata.sqlite3".toList, .file [1]),
    (".fresh-index-staging-1-2".toList, .dir [
      ("metadata.sqlite3".toList, .file [2]),
      ("tantivy".toList, .dir []),
      ("vectors.usearch".toList, .file [3])])])]

theorem promote_all_or_nothing_sample :
    let staging := FreshIndexStaging.create sampleWorkspace 1 2
    AllOrNothing (staging.promote noFaults sampleWorkspace ['a'] ['b']) sampleWorkspace
      staging.dir ['a'] ['b'] (mainStoreArtifacts sampleWorkspace)
      (staging.mainPromotions sampleWorkspace) sampleIndexTree :=
  (promote_all_or_nothing noFaults sampleWorkspace 1 2 ['a'] ['b'] sampleIndexTree
    ⟨fun _ _ _ => Bool.false_ne_true, fun _ _ h => by simp [Faults.RemovalFails, noFaults] at h⟩
    ⟨fun _ _ _ => Bool.false_ne_true, fun _ _ h => by simp [Faults.RemovalFails, noFaults] at h⟩).1

/-- The disk that a successful run leaves. -/
def okDisk (result : EStateM.Result StagingError Disk Unit) : Option Disk :=
  match result with
  | .ok _ disk => some disk
  | .error _ _ => none

/-- A successful promotion removes the staging directory, which is outside the artifact
    list: a staged file exists before it and not after. -/
theorem promote_removes_staging :
    let staging := FreshIndexStaging.create sampleWorkspace 1 2
    let path := staging.dir ++ ["tantivy".toList]
    path ∉ mainStoreArtifacts sampleWorkspace ∧ (sampleIndexTree.get path).isSome = true ∧
    (okDisk (staging.promote noFaults sampleWorkspace ['a'] ['b'] ⟨sampleIndexTree, []⟩)).map
      (fun disk => (disk.now.get path).isSome) = some false := by
  decide +kernel

/-! ## Crash safety -/

/-- The disk that a run leaves, whether it returns or throws. -/
def diskAfter (result : EStateM.Result StagingError Disk Unit) : Disk :=
  match result with
  | .ok _ disk => disk
  | .error _ disk => disk

theorem allStages_of_ends {plan : Plan} {faults : Faults} {run : Fs Unit} {disk : Disk}
    (h : Ends run disk (fun _ new => plan.Succeeded new) (fun _ new => plan.Aborted faults new)) :
    plan.AllStages (diskAfter (run disk)) := by
  unfold Ends at h
  unfold diskAfter
  cases hrun : run disk with
  | ok result new =>
    rw [hrun] at h
    exact h.2
  | error e new =>
    rw [hrun] at h
    exact h.1

/-- `workspace.json` is published last. -/
theorem overlayPromotions_getLast (staging : FreshIndexStaging) (workspace : Workspace)
    (first : Path × Path) (verified : Bool) :
    ((first :: staging.overlayPromotions workspace verified).map Prod.snd).getLast? =
      some workspace.metadataPath := by
  unfold FreshIndexStaging.overlayPromotions
  rw [← List.cons_append, List.map_append, List.map_singleton, List.getLast?_concat]

/-- In every tree in the course of `promoteOverlay` and of its rollback, whichever steps
    fail, the artifacts under a live `workspace.json` are all old or all new. -/
theorem promoteOverlay_crash_safe (faults : Faults) (workspace : Workspace) (pid unique : Nat)
    (incarnation backupId : Str) (start : FileTree) :
    let staging := FreshIndexStaging.createOverlay workspace pid unique
    ∀ tree ∈ (diskAfter (staging.promoteOverlay faults workspace incarnation backupId
        ⟨start, []⟩)).states,
      (tree.get workspace.metadataPath).isSome →
      (∀ a ∈ overlayStoreArtifacts workspace, tree.get a = start.get a) ∨
      Published workspace incarnation (overlayStoreArtifacts workspace)
        (staging.overlayPromotions workspace (stagedVerified workspace pid unique start))
        start tree := by
  intro staging tree htree hlive
  have hplan := overlay_describes workspace pid unique incarnation backupId start
    (stagedVerified workspace pid unique start)
  have hstage := allStages_of_ends
    (promoteOverlay_ends faults workspace pid unique incarnation backupId start) tree htree
  -- `workspace.json` is moved first and published last
  have hfirst : (overlayStoreArtifacts workspace).head? = some workspace.metadataPath := rfl
  have hlast := overlayPromotions_getLast staging workspace
    (staging.stagedIncarnation, workspace.indexIncarnationPath)
    (stagedVerified workspace pid unique start)
  rw [hplan.artifacts] at hfirst
  rw [hplan.promotions] at hlast
  cases hstage.old_or_promoted hfirst hlast hlive with
  | inl hold =>
    left
    intro a ha
    rw [hplan.artifacts] at ha
    rw [hold a ha, hplan.old]
  | inr hnew => exact .inr (published_of_live hplan hnew)

/-- A complete overlay staging over an old `workspace.json`. -/
private def sampleOverlayTree : FileTree :=
  .dir [("index".toList, .dir [
    ("workspace.json".toList, .file [1]),
    (".fresh-index-staging-1-2".toList, .dir [
      ("overlay.sqlite3".toList, .file [2]),
      ("overlay_tantivy".toList, .dir []),
      ("overlay_vectors.usearch".toList, .file [3]),
      ("base_ref.json".toList, .file [4]),
      ("merkle_snapshot.json".toList, .file [5]),
      ("index_format_version".toList, .file [6]),
      ("workspace.json".toList, .file [7])])])]

theorem promoteOverlay_crash_safe_sample :
    let staging := FreshIndexStaging.createOverlay sampleWorkspace 1 2
    let disk := diskAfter (staging.promoteOverlay noFaults sampleWorkspace ['a'] ['b']
      ⟨sampleOverlayTree, []⟩)
    (∀ a ∈ overlayStoreArtifacts sampleWorkspace, disk.now.get a = sampleOverlayTree.get a) ∨
      Published sampleWorkspace ['a'] (overlayStoreArtifacts sampleWorkspace)
        (staging.overlayPromotions sampleWorkspace
          (stagedVerified sampleWorkspace 1 2 sampleOverlayTree))
        sampleOverlayTree disk.now :=
  promoteOverlay_crash_safe noFaults sampleWorkspace 1 2 ['a'] ['b'] sampleOverlayTree _
    (now_mem_states _) (by decide +kernel)

end Ivygrep.Native
