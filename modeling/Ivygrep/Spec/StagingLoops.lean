import Ivygrep.Spec.StagingOps

/-!
# The loops of a promotion

What each loop of `promote_artifacts` and of its rollback does to the live artifacts, for
every fault: which stage it ends in, and that every tree on the way is in some stage.

## Key results

- `restoreBackups_ends`, `removePromoted_ends`, `rollbackMainStore_ends`: the rollback
- `preserveArtifacts_ends`, `promoteStaged_ends`: the two loops of the promotion
-/

namespace Ivygrep.Native

open ForStd (Ends attempt)
open ForStd.FileTree (Apart Moved SameOutside)

namespace Plan

variable (plan : Plan)

/-- How far a promotion or its rollback has come. A rollback restores what the promotion
    moved in reverse, so it goes through the same phases backwards; and it starts before
    everything is promoted. -/
inductive Phase : List (Path × Path) → List (Path × Path) → List Path → Prop where
  | preserve {moved : List (Path × Path)} (h : moved <+: plan.backups) : Phase moved [] []
  | promote {fresh : List (Path × Path)} (h : fresh <+: plan.promotions) :
      Phase plan.backups fresh []
  | remove {fresh : List (Path × Path)} {p : Path × Path} (h : fresh ++ [p] <+: plan.promotions)
      (hne : fresh ++ [p] ≠ plan.promotions) : Phase plan.backups fresh [p.2]

/-- A tree that a promotion of this plan can leave behind. -/
def Stage (tree : FileTree) : Prop :=
  ∃ moved fresh torn, plan.Phase moved fresh torn ∧ plan.Live tree moved fresh torn

/-- Every tree that the disk has been is in some stage. -/
def AllStages (disk : Disk) : Prop := ∀ tree ∈ disk.states, plan.Stage tree

/-- A step of the rollback can fail. -/
def RollbackFails (faults : Faults) : Prop :=
  (∃ a ∈ plan.artifacts, ∃ index, faults.fails (.rename (plan.backupPath index) a)) ∨
    ∃ p ∈ plan.promotions, faults.RemovalFails p.2

variable {plan}

theorem Phase.moved_prefix {moved fresh : List (Path × Path)} {torn : List Path}
    (h : plan.Phase moved fresh torn) : moved <+: plan.backups := by
  cases h with
  | preserve h => exact h
  | promote h => exact List.prefix_rfl
  | remove h hne => exact List.prefix_rfl

theorem Phase.fresh_prefix {moved fresh : List (Path × Path)} {torn : List Path}
    (h : plan.Phase moved fresh torn) : fresh <+: plan.promotions := by
  cases h with
  | preserve h => exact List.nil_prefix
  | promote h => exact h
  | remove h hne => exact (List.prefix_append _ _).trans h

theorem moved_mem {moved : List (Path × Path)} (h : moved <+: plan.backups) :
    ∀ b ∈ moved, b.1 ∈ plan.artifacts :=
  fun _ hb => fst_mem_artifacts (h.subset hb)

theorem fresh_mem {fresh : List (Path × Path)} (h : fresh <+: plan.promotions) :
    ∀ p ∈ fresh, p.2 ∈ plan.artifacts :=
  fun p hp => plan.live_mem p (h.subset hp)

/-- The promotions before one of them are different from it. -/
theorem fresh_ne {fresh : List (Path × Path)} {p : Path × Path}
    (h : fresh ++ [p] <+: plan.promotions) :
    ∀ q ∈ fresh, q ∈ plan.promotions ∧ q.2 ≠ p.2 := by
  intro q hq
  have hnodup := plan.live_nodup.sublist (h.sublist.map Prod.snd)
  rw [List.map_append, List.nodup_append] at hnodup
  refine ⟨h.subset (List.mem_append_left _ hq), ?_⟩
  exact hnodup.2.2 q.2 (List.mem_map_of_mem hq) p.2 (by simp)

/-- The backups before one of them are of other artifacts, at other paths. -/
theorem moved_ne {moved : List (Path × Path)} {b : Path × Path}
    (h : moved ++ [b] <+: plan.backups) : ∀ c ∈ moved, c.1 ≠ b.1 ∧ Apart c.2 b.2 := by
  intro c hc
  have hpairwise := List.Pairwise.sublist h.sublist backups_pairwise
  exact (List.pairwise_append.mp hpairwise).2.2 c hc b (by simp)

theorem backup_below {b : Path × Path} (h : b ∈ plan.backups) :
    ∃ index, b.2 = plan.backupPath index := by
  obtain ⟨index, -, -, hb⟩ := mem_backups.mp h
  exact ⟨index, hb⟩

theorem Stage.sameOutside {old new : FileTree} {dir : Path} (h : plan.Stage old)
    (hdir : dir = plan.stagingDir ∨ dir = plan.backupDir) (hsame : SameOutside dir old new) :
    plan.Stage new := by
  obtain ⟨moved, fresh, torn, hphase, hlive⟩ := h
  exact ⟨moved, fresh, torn, hphase,
    hlive.sameOutside hdir hsame (moved_mem hphase.moved_prefix) (fresh_mem hphase.fresh_prefix)⟩

/-- Work inside the staging or the backup directory leaves every stage. -/
theorem AllStages.changedInside {old new : Disk} {dir : Path} (h : plan.AllStages old)
    (hdir : dir = plan.stagingDir ∨ dir = plan.backupDir) (hchanged : ChangedInside dir old new) :
    plan.AllStages new := by
  intro tree htree
  cases hchanged.states tree htree with
  | inl hmem => exact h tree hmem
  | inr hsame => exact (h old.now (now_mem_states old)).sameOutside hdir hsame

theorem AllStages.step {disk : Disk} {tree : FileTree} (h : plan.AllStages disk)
    (htree : plan.Stage tree) : plan.AllStages (disk.step tree) := by
  intro other hother
  cases mem_states_step hother with
  | inl heq => exact heq ▸ htree
  | inr hmem => exact h other hmem

variable {faults : Faults} {disk : Disk}

/-! ## The rollback -/

/-- The restore loop puts every moved artifact back, unless one of its renames fails. -/
theorem restoreBackups_ends {moved : List (Path × Path)} (hfront : moved <+: plan.backups)
    (hlive : plan.Live disk.now moved [] []) (hstored : plan.Stored disk.now moved)
    (hdir : disk.now.isDir plan.indexDir) (hall : plan.AllStages disk) :
    Ends (restoreBackups faults moved.reverse) disk
      (fun _ new => plan.Live new.now [] [] [] ∧ plan.AllStages new)
      (fun _ new => plan.AllStages new ∧ plan.RollbackFails faults) := by
  induction moved using List.reverseRecOn generalizing disk with
  | nil => exact Ends.pure ⟨hlive, hall⟩
  | append_singleton moved b ih =>
    have hb : b ∈ plan.backups := hfront.subset (by simp)
    have hmoved : moved <+: plan.backups := (List.prefix_append _ _).trans hfront
    have hartifact := fst_mem_artifacts hb
    have hne := moved_ne hfront
    obtain ⟨index, hindex⟩ := backup_below hb
    have hapart : Apart b.2 b.1 := by
      rw [hindex]
      exact (artifact_apart_backup hartifact [decimal index]).symm
    have hnil : b.2 ≠ [] := by simp [hindex, backupPath]
    rw [List.reverse_append, List.reverse_singleton, List.singleton_append]
    unfold restoreBackups
    refine Ends.bind (fun _ new => Moved disk.now new.now b.2 b.1 ∧
      new = disk.step new.now) ?_ ?_
    · apply ends_withContext
      apply (rename_ends hnil hapart).mono
      · intro _ new hnew
        exact hnew
      · intro _ new hout
        obtain ⟨hsame, hfail⟩ := hout
        rw [hsame]
        refine ⟨hall, .inl ⟨b.1, hartifact, index, ?_⟩⟩
        rw [← hindex]
        apply hfail.resolve_right
        -- the backup exists and its artifact's place is free
        have hsome : (disk.now.get b.2).isSome := by
          obtain ⟨-, -, hold, -⟩ := mem_backups.mp hb
          rw [hstored b (by simp)]
          exact hold
        have hfree : disk.now.get b.1 = none := hlive.absent b.1 (by simp) (by simp) (by simp)
        have hok := ForStd.FileTree.rename_isSome hapart hsome
          (by rw [artifact_dropLast hartifact]; exact hdir) hfree
        intro hnone
        rw [hnone] at hok
        cases hok
    · intro _ new hout
      obtain ⟨hmove, hnew⟩ := hout
      have hlive' : plan.Live new.now moved [] [] := by
        apply hlive.restore hartifact _ hindex hmove (hstored b (by simp))
        intro c hc
        exact ⟨moved_mem hmoved c hc, (hne c hc).1⟩
      apply ih hmoved hlive'
      · intro c hc
        rw [hmove.other c.2 (hne c hc).2.symm]
        · exact hstored c (List.mem_append_left _ hc)
        · obtain ⟨i, hi⟩ := backup_below (hmoved.subset hc)
          rw [hi]
          exact artifact_apart_backup hartifact [decimal i]
      · rw [hmove.isDir]
        · exact hdir
        · intro hpre
          rw [hindex] at hpre
          simpa [backupPath, backupDir] using hpre.length_le
        · exact artifact_not_prefix_indexDir hartifact
      · rw [hnew]
        exact hall.step ⟨moved, [], [], .preserve hmoved, hlive'⟩

/-- The removal loop takes every promoted path away, unless a removal fails. -/
theorem removePromoted_ends {fresh : List (Path × Path)} (hfront : fresh <+: plan.promotions)
    (hne : fresh ≠ plan.promotions) (hlive : plan.Live disk.now plan.backups fresh [])
    (hstored : plan.Stored disk.now plan.backups) (hdir : disk.now.isDir plan.indexDir)
    (hall : plan.AllStages disk) :
    Ends (removePromoted faults (fresh.map Prod.snd).reverse) disk
      (fun _ new => plan.Live new.now plan.backups [] [] ∧ plan.Stored new.now plan.backups ∧
        new.now.isDir plan.indexDir ∧ plan.AllStages new)
      (fun _ new => plan.AllStages new ∧ plan.RollbackFails faults) := by
  induction fresh using List.reverseRecOn generalizing disk with
  | nil => exact Ends.pure ⟨hlive, hstored, hdir, hall⟩
  | append_singleton fresh p ih =>
    have hp : p ∈ plan.promotions := hfront.subset (by simp)
    have hartifact := plan.live_mem p hp
    have hmoved := moved_mem (List.prefix_refl plan.backups)
    -- while the path is being removed, only it is torn
    have htear : ∀ {tree : FileTree}, SameOutside p.2 disk.now tree →
        plan.Live tree plan.backups fresh [p.2] := by
      intro tree hsame
      exact hlive.tear hp (fresh_ne hfront) hmoved hsame
    have hallTorn : ∀ {new : Disk}, ChangedInside p.2 disk new → plan.AllStages new := by
      intro new hchanged tree htree
      cases hchanged.states tree htree with
      | inl hmem => exact hall tree hmem
      | inr hsame => exact ⟨_, _, _, .remove hfront hne, htear hsame⟩
    rw [List.map_append, List.map_singleton, List.reverse_append, List.reverse_singleton,
      List.singleton_append]
    unfold removePromoted
    refine Ends.bind (fun _ new => ChangedInside p.2 disk new ∧ new.now.get p.2 = none)
      ?_ ?_
    · apply ends_withContext
      apply (removePathIfExists_ends (artifact_ne_nil hartifact)).mono
      · intro _ new hnew
        exact hnew
      · intro _ new hnew
        exact ⟨hallTorn hnew.1, .inr ⟨p, hp, hnew.2⟩⟩
    · intro _ new hout
      obtain ⟨hchanged, hgone⟩ := hout
      apply ih ((List.prefix_append _ _).trans hfront)
      · intro heq
        have hlen := hfront.length_le
        rw [heq, List.length_append] at hlen
        simp at hlen
      · apply (htear hchanged.now).clear hgone
        intro hnot
        cases hold : plan.old p.2 with
        | none => rfl
        | some tree => exact absurd (mem_map_backups hartifact (by simp [hold])) hnot
      · intro b hb
        obtain ⟨index, hindex⟩ := backup_below hb
        rw [hchanged.now.get]
        · exact hstored b hb
        · rw [hindex]
          exact artifact_apart_backup hartifact [decimal index]
      · rw [hchanged.now.isDir _ (artifact_not_prefix_indexDir hartifact)]
        exact hdir
      · exact hallTorn hchanged

theorem rollbackMainStore_ends {fresh : List (Path × Path)} (hfront : fresh <+: plan.promotions)
    (hne : fresh ≠ plan.promotions) (hlive : plan.Live disk.now plan.backups fresh [])
    (hstored : plan.Stored disk.now plan.backups) (hdir : disk.now.isDir plan.indexDir)
    (hall : plan.AllStages disk) :
    Ends (rollbackMainStore faults (fresh.map Prod.snd) plan.backups) disk
      (fun _ new => plan.Live new.now [] [] [] ∧ plan.AllStages new)
      (fun _ new => plan.AllStages new ∧ plan.RollbackFails faults) := by
  unfold rollbackMainStore
  apply Ends.bind _ (removePromoted_ends hfront hne hlive hstored hdir hall)
  intro _ new hout
  obtain ⟨hlive', hstored', hdir', hall'⟩ := hout
  exact restoreBackups_ends List.prefix_rfl hlive' hstored' hdir' hall'

/-- What holds when a promotion gives up: the artifacts are what they were, unless the
    rollback failed too. -/
def Aborted (plan : Plan) (faults : Faults) (disk : Disk) : Prop :=
  plan.AllStages disk ∧ (plan.Live disk.now [] [] [] ∨ plan.RollbackFails faults)

theorem Aborted.changedInside {old new : Disk} {dir : Path} (h : plan.Aborted faults old)
    (hdir : dir = plan.stagingDir ∨ dir = plan.backupDir) (hchanged : ChangedInside dir old new) :
    plan.Aborted faults new := by
  constructor
  · exact h.1.changedInside hdir hchanged
  · cases h.2 with
    | inl hlive =>
      exact .inl (hlive.sameOutside hdir hchanged.now
        (fun b hb => absurd hb (by simp)) fun p hp => absurd hp (by simp))
    | inr hfail => exact .inr hfail

theorem backupDir_ne_nil : plan.backupDir ≠ [] := by simp [backupDir]

theorem stagingDir_ne_nil : plan.stagingDir ≠ [] := by simp [stagingDir]

/-- A removal of the staging or the backup directory, whatever it achieves. -/
theorem ignore_removeDirAll_ends {dir : Path} {post : Disk → Prop}
    {err : StagingError → Disk → Prop} (hdir : dir = plan.stagingDir ∨ dir = plan.backupDir)
    (hpost : ∀ new, ChangedInside dir disk new → post new) :
    Ends (ignore (removeDirAll faults dir)) disk (fun _ => post) err := by
  have hne : dir ≠ [] := by
    cases hdir with
    | inl heq => rw [heq]; exact stagingDir_ne_nil
    | inr heq => rw [heq]; exact backupDir_ne_nil
  apply ends_ignore
  apply (removeDirAll_ends hne).mono
  · intro _ new hnew
    exact hpost new hnew.1
  · intro _ new hnew
    exact hpost new hnew.1

theorem abandon_ends {α : Type} {rollback : Fs Unit} {error : StagingError}
    {retained : StagingError → StagingError}
    (h : Ends rollback disk (fun _ new => plan.Live new.now [] [] [] ∧ plan.AllStages new)
      (fun _ new => plan.AllStages new ∧ plan.RollbackFails faults)) :
    Ends (abandon (α := α) faults plan.backupDir rollback error retained) disk
      (fun _ _ => False) (fun _ new => plan.Aborted faults new) := by
  unfold abandon
  apply Ends.bind _ h.attempt
  intro result new hresult
  cases hresult with
  | inl hok =>
    obtain ⟨_, rfl, hlive, hall⟩ := hok
    refine Ends.bind (fun _ new => plan.Aborted faults new) ?_ ?_
    · apply ignore_removeDirAll_ends (.inr rfl)
      intro next hchanged
      exact Aborted.changedInside ⟨hall, .inl hlive⟩ (.inr rfl) hchanged
    · intro _ next hnext
      exact Ends.throw hnext
  | inr herr =>
    obtain ⟨rollbackError, rfl, hall, hfail⟩ := herr
    refine Ends.bind (fun _ new => plan.Aborted faults new) ?_ ?_
    · have hkeep : ∀ next, ChangedInside (plan.backupDir ++ [retainedBackupMarker]) new next →
          plan.Aborted faults next := fun next hchanged =>
        Aborted.changedInside ⟨hall, .inr hfail⟩ (.inr rfl) hchanged.above
      apply ends_ignore
      apply (writeFile_ends [] [retainedBackupMarker]).mono
      · intro _ next hnext
        exact hkeep next hnext.1
      · intro _ next hnext
        exact hkeep next hnext
    · intro _ next hnext
      exact Ends.throw hnext

/-! ## The promotion -/

variable (plan) in
/-- The disk between two steps of a promotion that has not failed. -/
structure Ready (disk : Disk) (moved fresh : List (Path × Path)) : Prop where
  live : plan.Live disk.now moved fresh []
  stored : plan.Stored disk.now moved
  staged : ∀ p ∈ plan.promotions, p ∉ fresh → disk.now.get p.1 = plan.source p.1
  isDir : disk.now.isDir plan.indexDir
  all : plan.AllStages disk

theorem backupsOf_append (front back : List (Path × Nat)) :
    plan.backupsOf (front ++ back) = plan.backupsOf front ++ plan.backupsOf back := by
  simp [backupsOf]

/-- An artifact that the first loop has yet to visit has not moved. -/
theorem not_mem_backupsOf {front back : List (Path × Nat)} {entry : Path × Nat}
    (h : plan.artifacts.zipIdx = front ++ entry :: back) :
    entry.1 ∉ (plan.backupsOf front).map Prod.fst := by
  have hnodup : (front ++ entry :: back).map Prod.fst |>.Nodup := by
    rw [← h, List.zipIdx_map_fst]
    exact plan.artifacts_nodup
  rw [List.map_append, List.nodup_append] at hnodup
  intro hmem
  obtain ⟨b, hb, hfst⟩ := List.mem_map.mp hmem
  obtain ⟨visited, hvisited, rfl⟩ := List.mem_map.mp hb
  exact hnodup.2.2 visited.1 (List.mem_map_of_mem (List.mem_filter.mp hvisited).1) entry.1
    (by simp) hfst

/-- The first loop moves every artifact that exists to the backup directory. -/
theorem preserveArtifacts_ends (front back : List (Path × Nat))
    (hsplit : plan.artifacts.zipIdx = front ++ back)
    (hready : plan.Ready disk (plan.backupsOf front) []) :
    Ends (preserveArtifacts faults plan.backupDir back (plan.backupsOf front)) disk
      (fun result new => result = plan.backups ∧ plan.Ready new plan.backups [])
      (fun _ new => plan.Aborted faults new) := by
  induction back generalizing disk front with
  | nil =>
    rw [List.append_nil] at hsplit
    unfold preserveArtifacts
    apply Ends.pure
    unfold backups
    rw [hsplit]
    exact ⟨rfl, hready⟩
  | cons entry back ih =>
    have hnot := not_mem_backupsOf hsplit
    have hartifact : entry.1 ∈ plan.artifacts :=
      List.fst_mem_of_mem_zipIdx (by rw [hsplit]; simp)
    have hfront : plan.backupsOf front <+: plan.backups := by
      unfold backups
      rw [hsplit, backupsOf_append]
      exact List.prefix_append _ _
    have hkept := hready.live.kept entry.1 hartifact hnot (by simp) (by simp)
    have hnext : plan.artifacts.zipIdx = (front ++ [entry]) ++ back := by rw [hsplit]; simp
    unfold preserveArtifacts
    refine Ends.bind (fun found new => new = disk ∧
      found = (disk.now.get entry.1).isSome) ⟨rfl, rfl⟩ ?_
    intro found new hout
    obtain ⟨hnew, hfound⟩ := hout
    rw [hnew]
    rw [hkept] at hfound
    cases found with
    | false =>
      -- nothing to move
      have hsame : plan.backupsOf (front ++ [entry]) = plan.backupsOf front := by
        rw [backupsOf_append]
        simp [backupsOf, ← hfound]
      rw [if_pos (by simp), ← hsame]
      exact ih _ hnext (by rw [hsame]; exact hready)
    | true =>
      have hmore : plan.backupsOf (front ++ [entry]) =
          plan.backupsOf front ++ [(entry.1, plan.backupPath entry.2)] := by
        rw [backupsOf_append]
        simp [backupsOf, ← hfound]
      have hfront' : plan.backupsOf front ++ [(entry.1, plan.backupPath entry.2)] <+:
          plan.backups := by
        unfold backups
        rw [← hmore, hnext, backupsOf_append (front ++ [entry])]
        exact List.prefix_append _ _
      have hapart : Apart entry.1 (plan.backupPath entry.2) :=
        artifact_apart_backup hartifact [decimal entry.2]
      rw [if_neg (by simp)]
      refine Ends.bind _ ((rename_ends (artifact_ne_nil hartifact) hapart).attempt) ?_
      intro result new hresult
      cases hresult with
      | inr herr =>
        obtain ⟨error, rfl, hsame, -⟩ := herr
        rw [hsame]
        apply (abandon_ends (restoreBackups_ends hfront hready.live hready.stored hready.isDir
          hready.all)).mono
        · intro _ _ hfalse
          exact hfalse.elim
        · intro _ _ haborted
          exact haborted
      | inl hok =>
        obtain ⟨_, rfl, hmove, hstep⟩ := hok
        have hlive : plan.Live new.now (plan.backupsOf (front ++ [entry])) [] [] := by
          rw [hmore]
          exact hready.live.preserve hartifact (moved_mem hfront) rfl hmove
        show Ends (preserveArtifacts faults plan.backupDir back
          (plan.backupsOf front ++ [(entry.1, plan.backupPath entry.2)])) _ _ _
        rw [← hmore]
        apply ih _ hnext
        refine ⟨hlive, ?_, ?_, ?_, ?_⟩
        · intro b hb
          rw [hmore, List.mem_append] at hb
          cases hb with
          | inl hb =>
            obtain ⟨index, hindex⟩ := backup_below (hfront.subset hb)
            have happ : Apart b.2 (plan.backupPath entry.2) := (moved_ne hfront' b hb).2
            rw [hmove.other b.2 _ happ.symm]
            · exact hready.stored b hb
            · rw [hindex]
              exact artifact_apart_backup hartifact [decimal index]
          | inr hb =>
            rw [List.mem_singleton.mp hb, hmove.dst_eq]
            exact hkept
        · intro p hp hfresh
          obtain ⟨name, hname⟩ := staged_below hp
          rw [hmove.other]
          · exact hready.staged p hp hfresh
          · rw [hname]
            exact artifact_apart_staging hartifact [name]
          · rw [hname]
            exact (staging_apart_backup plan [name] [decimal entry.2]).symm
        · rw [hmove.isDir]
          · exact hready.isDir
          · exact artifact_not_prefix_indexDir hartifact
          · intro hpre
            simpa [backupPath, backupDir] using hpre.length_le
        · rw [hstep]
          exact hready.all.step ⟨_, _, _, .preserve (hmore ▸ hfront'), hlive⟩

/-- The second loop moves every staged path to its live path. -/
theorem promoteStaged_ends (fresh back : List (Path × Path))
    (hsplit : plan.promotions = fresh ++ back) (hready : plan.Ready disk plan.backups fresh) :
    Ends (promoteStaged faults plan.backupDir plan.backups back (fresh.map Prod.snd)) disk
      (fun _ new => plan.Live new.now plan.backups plan.promotions [] ∧ plan.AllStages new)
      (fun _ new => plan.Aborted faults new) := by
  induction back generalizing disk fresh with
  | nil =>
    rw [List.append_nil] at hsplit
    unfold promoteStaged
    apply Ends.pure
    rw [hsplit]
    exact ⟨hready.live, hready.all⟩
  | cons p back ih =>
    have hp : p ∈ plan.promotions := by rw [hsplit]; simp
    have hnext : plan.promotions = (fresh ++ [p]) ++ back := by rw [hsplit]; simp
    have hfront : fresh ++ [p] <+: plan.promotions := hnext ▸ List.prefix_append _ _
    have hnotFresh : p ∉ fresh := fun hmem => (fresh_ne hfront p hmem).2 rfl
    have hartifact := plan.live_mem p hp
    obtain ⟨name, hname⟩ := staged_below hp
    have hapart : Apart p.1 p.2 := by
      rw [hname]
      exact (artifact_apart_staging hartifact [name]).symm
    unfold promoteStaged
    refine Ends.bind _ ((rename_ends (by simp [hname]) hapart).attempt) ?_
    intro result new hresult
    cases hresult with
    | inr herr =>
      obtain ⟨error, rfl, hsame, -⟩ := herr
      rw [hsame]
      have hne : fresh ≠ plan.promotions := by
        intro heq
        have hlen := hfront.length_le
        rw [heq, List.length_append] at hlen
        simp at hlen
      apply (abandon_ends (rollbackMainStore_ends ((List.prefix_append _ _).trans hfront) hne
        hready.live hready.stored hready.isDir hready.all)).mono
      · intro _ _ hfalse
        exact hfalse.elim
      · intro _ _ haborted
        exact haborted
    | inl hok =>
      obtain ⟨_, rfl, hmove, hstep⟩ := hok
      have hlive : plan.Live new.now plan.backups (fresh ++ [p]) [] :=
        hready.live.promote hp (fresh_ne hfront) (moved_mem List.prefix_rfl) hmove
          (hready.staged p hp hnotFresh)
      have hmap : fresh.map Prod.snd ++ [p.2] = (fresh ++ [p]).map Prod.snd := by simp
      show Ends (promoteStaged faults plan.backupDir plan.backups back
        (fresh.map Prod.snd ++ [p.2])) _ _ _
      rw [hmap]
      apply ih _ hnext
      refine ⟨hlive, ?_, ?_, ?_, ?_⟩
      · intro b hb
        obtain ⟨index, hindex⟩ := backup_below hb
        rw [hmove.other]
        · exact hready.stored b hb
        · rw [hname, hindex]
          exact staging_apart_backup plan [name] [decimal index]
        · rw [hindex]
          exact artifact_apart_backup hartifact [decimal index]
      · intro q hq hnot
        rw [List.mem_append, not_or] at hnot
        have hstagedNe : p.1 ≠ q.1 := by
          intro heq
          exact hnot.2 (by simp [List.inj_on_of_nodup_map plan.staged_nodup hp hq heq])
        obtain ⟨other, hother⟩ := staged_below hq
        rw [hmove.other q.1 (staged_apart hp hq hstagedNe)]
        · exact hready.staged q hq hnot.1
        · rw [hother]
          exact artifact_apart_staging hartifact [other]
      · rw [hmove.isDir]
        · exact hready.isDir
        · intro hpre
          rw [hname] at hpre
          simpa [stagingDir] using hpre.length_le
        · exact artifact_not_prefix_indexDir hartifact
      · rw [hstep]
        exact hready.all.step ⟨_, _, _, .promote hfront, hlive⟩

/-! ## The whole of `promote_artifacts` -/

/-- The plan is that of a call of `promoteArtifacts` that starts from `start`. -/
structure Describes (plan : Plan) (staging : FreshIndexStaging) (workspace : Workspace)
    (incarnation backupId : Str) (artifacts : List Path) (promotions : List (Path × Path))
    (start : FileTree) : Prop where
  dir : staging.dir = plan.stagingDir
  backupDir : FreshIndexStaging.backupDir workspace backupId = plan.backupDir
  artifacts : artifacts = plan.artifacts
  promotions : (staging.stagedIncarnation, workspace.indexIncarnationPath) :: promotions =
    plan.promotions
  old : plan.old = start.get
  source : plan.source = fun path =>
    if path = staging.stagedIncarnation then some (.file (Str.bytes incarnation))
    else start.get path

theorem ensure_ends (condition : Bool) (error : StagingError) :
    Ends (ensure condition error) disk (fun _ new => new = disk) (fun _ new => new = disk) := by
  unfold ensure
  cases condition with
  | true => exact Ends.pure rfl
  | false => exact Ends.throw rfl

/-- A check of the staging that only reads. -/
theorem ensure_read_ends {read : Fs Bool} {error : StagingError} {α : Type} {rest : Fs α}
    {ok : α → Disk → Prop} {err : StagingError → Disk → Prop}
    (hread : ∃ found, read disk = .ok found disk) (herr : ∀ e, err e disk)
    (hrest : Ends rest disk ok err) :
    Ends (do ensure (← read) error; rest) disk ok err := by
  obtain ⟨found, hfound⟩ := hread
  refine Ends.bind (fun _ new => new = disk) ?_ ?_
  · unfold Ends
    simp only [hfound]
  · intro result new hnew
    rw [hnew]
    refine Ends.bind (fun _ new => new = disk) ?_ ?_
    · apply (ensure_ends result error).mono
      · intro _ _ hsame
        exact hsame
      · intro e _ hsame
        rw [hsame]
        exact herr e
    · intro _ new hnew
      rw [hnew]
      exact hrest

/-- Before the first step, the promotion can give up. -/
theorem Describes.aborted {staging : FreshIndexStaging} {workspace : Workspace}
    {incarnation backupId : Str} {artifacts : List Path} {promotions : List (Path × Path)}
    (hplan : plan.Describes staging workspace incarnation backupId artifacts promotions disk.now)
    (hall : plan.AllStages disk) : plan.Aborted faults disk := by
  refine ⟨hall, .inl (Live.of_old ?_ ?_)⟩
  · intro a _
    rw [hplan.old]
  · intro path _
    rw [hplan.old]

/-- The disk is ready for the first loop once the new identity is staged and the backup
    directory exists. -/
theorem Describes.ready {staging : FreshIndexStaging} {workspace : Workspace}
    {incarnation backupId : Str} {artifacts : List Path} {promotions : List (Path × Path)}
    {written created : Disk}
    (hplan : plan.Describes staging workspace incarnation backupId artifacts promotions disk.now)
    (hall : plan.AllStages disk)
    (hwritten : ChangedInside staging.stagedIncarnation disk written)
    (hcontent : written.now.get staging.stagedIncarnation =
      some (.file (Str.bytes incarnation)))
    (hcreated : ChangedInside plan.backupDir written created)
    (hisDir : created.now.isDir plan.backupDir) : plan.Ready created [] [] := by
  have hinside : ChangedInside plan.stagingDir disk written := by
    unfold FreshIndexStaging.stagedIncarnation at hwritten
    rw [hplan.dir] at hwritten
    exact hwritten.above
  have hstages := (hall.changedInside (.inl rfl) hinside).changedInside (.inr rfl) hcreated
  constructor
  · have hlive : plan.Live disk.now [] [] [] :=
      Live.of_old (fun a _ => by rw [hplan.old]) fun path _ => by rw [hplan.old]
    apply Live.sameOutside _ (.inr rfl) hcreated.now (by simp) (by simp)
    exact hlive.sameOutside (.inl rfl) hinside.now (by simp) (by simp)
  · intro b hb
    exact absurd hb (by simp)
  · intro p hp _
    have hstaged : created.now.get p.1 = written.now.get p.1 := by
      obtain ⟨name, hname⟩ := staged_below hp
      apply hcreated.now.get
      rw [hname]
      simpa using (staging_apart_backup plan [name] []).symm
    rw [hstaged, hplan.source]
    by_cases heq : p.1 = staging.stagedIncarnation
    · simp only [heq, if_true, hcontent]
    · simp only [heq, if_false]
      apply hwritten.now.get
      have hmem : (staging.stagedIncarnation, workspace.indexIncarnationPath) ∈
          plan.promotions := by
        rw [← hplan.promotions]
        exact List.mem_cons_self
      exact staged_apart hmem hp (Ne.symm heq)
  · apply ForStd.FileTree.isDir_of_get_isSome (List.cons_ne_nil plan.backupName [])
    exact ForStd.FileTree.get_isSome_of_isDir hisDir
  · exact hstages

variable (plan) in
/-- What holds when a promotion succeeds. -/
def Succeeded (disk : Disk) : Prop :=
  plan.Live disk.now plan.backups plan.promotions [] ∧ plan.AllStages disk

theorem Succeeded.changedInside {old new : Disk} {dir : Path} (h : plan.Succeeded old)
    (hdir : dir = plan.stagingDir ∨ dir = plan.backupDir) (hchanged : ChangedInside dir old new) :
    plan.Succeeded new := by
  constructor
  · exact h.1.sameOutside hdir hchanged.now (moved_mem List.prefix_rfl) (fresh_mem List.prefix_rfl)
  · exact h.2.changedInside hdir hchanged

/-- `promote_artifacts` publishes everything or gives up, for every fault. -/
theorem promoteArtifacts_ends {staging : FreshIndexStaging} {workspace : Workspace}
    {incarnation backupId : Str} {artifacts : List Path} {promotions : List (Path × Path)}
    (hplan : plan.Describes staging workspace incarnation backupId artifacts promotions disk.now)
    (hall : plan.AllStages disk) :
    Ends (staging.promoteArtifacts faults workspace incarnation backupId artifacts promotions)
      disk (fun _ new => plan.Succeeded new) (fun _ new => plan.Aborted faults new) := by
  have hstart : plan.Aborted faults disk := hplan.aborted hall
  have hinside : ∀ {new : Disk}, ChangedInside staging.stagedIncarnation disk new →
      plan.Aborted faults new := by
    intro new hnew
    unfold FreshIndexStaging.stagedIncarnation at hnew
    rw [hplan.dir] at hnew
    exact hstart.changedInside (.inl rfl) hnew.above
  unfold FreshIndexStaging.promoteArtifacts
  apply ensure_read_ends ⟨_, rfl⟩ fun _ => hstart
  apply ensure_read_ends ⟨_, rfl⟩ fun _ => hstart
  apply ensure_read_ends ⟨_, rfl⟩ fun _ => hstart
  rw [hplan.promotions, hplan.backupDir, hplan.artifacts, hplan.dir]
  -- the new identity is staged
  refine Ends.bind (fun _ new =>
    ChangedInside staging.stagedIncarnation disk new ∧
      new.now.get staging.stagedIncarnation = some (.file (Str.bytes incarnation))) ?_ ?_
  · apply (writeFile_ends _ _).mono
    · intro _ new hnew
      exact ⟨hnew.1, hnew.2 (List.cons_ne_nil _ _)⟩
    · intro _ new hnew
      exact hinside hnew
  intro _ written hout
  obtain ⟨hwritten, hcontent⟩ := hout
  -- the backup directory is created
  refine Ends.bind (fun _ new => plan.Ready new (plan.backupsOf []) []) ?_ ?_
  · apply (createDir_ends plan.indexDir plan.backupName rfl).mono
    · intro _ new hnew
      exact hplan.ready hall hwritten hcontent hnew.1 hnew.2.2
    · intro _ new hsame
      rw [hsame]
      exact hinside hwritten
  -- the two loops
  intro _ ready hready
  apply Ends.bind _ (preserveArtifacts_ends [] _ rfl hready)
  intro backups moved hout
  obtain ⟨hbackups, hmoved⟩ := hout
  rw [hbackups]
  refine Ends.bind (fun _ new => plan.Succeeded new)
    (promoteStaged_ends [] _ rfl hmoved) ?_
  intro _ promoted hpromoted
  -- the clean-up
  refine Ends.bind (fun _ new => plan.Succeeded new)
    (ignore_removeDirAll_ends (.inr rfl) fun _ hnew => hpromoted.changedInside (.inr rfl) hnew) ?_
  intro _ cleaned hcleaned
  exact ignore_removeDirAll_ends (.inl rfl) fun _ hnew => hcleaned.changedInside (.inl rfl) hnew

/-- Dropping a staging that was not promoted concerns no artifact. -/
theorem dropUnlessPromoted_ends {staging : FreshIndexStaging} {x : Fs Unit}
    (hdir : staging.dir = plan.stagingDir)
    (h : Ends x disk (fun _ new => plan.Succeeded new) (fun _ new => plan.Aborted faults new)) :
    Ends (dropUnlessPromoted faults staging x) disk (fun _ new => plan.Succeeded new)
      (fun _ new => plan.Aborted faults new) := by
  unfold dropUnlessPromoted
  apply Ends.bind _ h.attempt
  intro result new hresult
  cases hresult with
  | inl hok =>
    obtain ⟨_, rfl, hsucceeded⟩ := hok
    exact Ends.pure hsucceeded
  | inr herr =>
    obtain ⟨error, rfl, haborted⟩ := herr
    rw [hdir]
    refine Ends.bind (fun _ next => plan.Aborted faults next)
      (ignore_removeDirAll_ends (.inl rfl) fun _ hnew => haborted.changedInside (.inl rfl) hnew) ?_
    intro _ next hnext
    exact Ends.throw hnext

/-! ## Crashes -/

/-- With everything moved, an artifact that is neither fresh nor torn is absent. -/
theorem Live.none_of_moved {tree : FileTree} {fresh : List (Path × Path)} {torn : List Path}
    (h : plan.Live tree plan.backups fresh torn) {a : Path} (ha : a ∈ plan.artifacts)
    (hfresh : a ∉ fresh.map Prod.snd) (htorn : a ∉ torn) : tree.get a = none := by
  by_cases hmoved : a ∈ plan.backups.map Prod.fst
  · exact h.absent a hmoved hfresh htorn
  · rw [h.kept a ha hmoved hfresh htorn]
    cases hold : plan.old a with
    | none => rfl
    | some content => exact absurd (mem_map_backups ha (by simp [hold])) hmoved

/-- The last promotion is not among the promotions of a proper prefix. -/
theorem last_not_mem_fresh {fresh : List (Path × Path)} {last : Path}
    (hfront : fresh <+: plan.promotions) (hne : fresh ≠ plan.promotions)
    (hlast : (plan.promotions.map Prod.snd).getLast? = some last) :
    last ∉ fresh.map Prod.snd := by
  obtain ⟨rest, hrest⟩ := hfront
  have hrestNe : rest ≠ [] := by
    intro heq
    rw [heq, List.append_nil] at hrest
    exact hne hrest
  have hnodup := plan.live_nodup
  rw [← hrest, List.map_append] at hlast hnodup
  rw [List.getLast?_append_of_ne_nil _ (by simpa using hrestNe)] at hlast
  intro hmem
  exact (List.nodup_append.mp hnodup).2.2 last hmem last (List.mem_of_getLast? hlast) rfl

/-- As long as anything is moved, the first artifact is, if there was one. -/
theorem first_mem_moved {moved : List (Path × Path)} {first : Path}
    (hfront : moved <+: plan.backups) (hne : moved ≠ [])
    (hfirst : plan.artifacts.head? = some first) (hold : (plan.old first).isSome) :
    first ∈ moved.map Prod.fst := by
  obtain ⟨b, moved, rfl⟩ := List.exists_cons_of_ne_nil hne
  obtain ⟨rest, hrest⟩ := hfront
  obtain ⟨others, hothers⟩ : ∃ others, plan.artifacts = first :: others :=
    List.head?_eq_some_iff.mp hfirst
  unfold backups backupsOf at hrest
  rw [hothers, List.zipIdx_cons, List.filter_cons, if_pos (by simpa using hold), List.map_cons,
    List.cons_append, List.cons.injEq] at hrest
  simp [hrest.1]

/-- Where the first artifact is also the last promotion, it is live only while nothing has
    moved or once everything is promoted. -/
theorem Stage.old_or_promoted {tree : FileTree} {first : Path} (h : plan.Stage tree)
    (hfirst : plan.artifacts.head? = some first)
    (hlast : (plan.promotions.map Prod.snd).getLast? = some first)
    (hlive : (tree.get first).isSome) :
    (∀ a ∈ plan.artifacts, tree.get a = plan.old a) ∨
      plan.Live tree plan.backups plan.promotions [] := by
  have hmem : first ∈ plan.artifacts := List.mem_of_head? hfirst
  have habsent : tree.get first ≠ none := Option.isSome_iff_ne_none.mp hlive
  obtain ⟨moved, fresh, torn, hphase, hstage⟩ := h
  cases hphase with
  | preserve hfront =>
    by_cases hmoved : moved = []
    · left
      intro a ha
      exact hstage.kept a ha (by simp [hmoved]) (by simp) (by simp)
    · -- the first artifact was moved first and is restored last
      exfalso
      apply habsent
      by_cases hin : first ∈ moved.map Prod.fst
      · exact hstage.absent first hin (by simp) (by simp)
      · rw [hstage.kept first hmem hin (by simp) (by simp)]
        cases hold : plan.old first with
        | none => rfl
        | some content =>
          exact absurd (first_mem_moved hfront hmoved hfirst (by simp [hold])) hin
  | promote hfront =>
    by_cases hall : fresh = plan.promotions
    · right
      rw [← hall]
      exact hstage
    · exact absurd (hstage.none_of_moved hmem (last_not_mem_fresh hfront hall hlast) (by simp))
        habsent
  | @remove _ p hfront hne =>
    have hnot := last_not_mem_fresh hfront hne hlast
    rw [List.map_append, List.mem_append, not_or] at hnot
    exact absurd (hstage.none_of_moved hmem hnot.1 (by simpa using hnot.2)) habsent

end Plan

end Ivygrep.Native
