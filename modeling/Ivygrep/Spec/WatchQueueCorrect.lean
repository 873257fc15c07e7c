import Ivygrep.Spec.WatchQueueRuns

/-!
# The watch queue loses no event

Marked work stays in the queue until it is claimed, and claimed until a run has covered it;
the worker does not sleep while work is pending; and `Ready` is published after a full run,
with nothing pending or claimed.

## Key results

- `watchQueue_correct`: the marks, the runs, the worker and the readiness in every run
- `watchQueue_not_notified`: the state in which work is pending and the worker not yet notified
-/

namespace Ivygrep.Native

variable {Path : Type} [DecidableEq Path]

namespace WatchQueue

variable {queue next : WatchQueue Path} {index : Nat} {item : WatchItem Path}

/-! ## Marked work -/

/-- What the mark `index` asks for is pending, claimed, or covered by a run that started
    after the mark and has succeeded. -/
def Covered (queue : WatchQueue Path) (index : Nat) (item : WatchItem Path) : Prop :=
  queue.control.pendingWork.change.Covers item ∨
    (∃ claim, queue.worker.claim = some claim ∧ index < claim.marksBefore ∧
      claim.work.change.Covers item) ∨
    ∃ run ∈ queue.runs, run.outcome = some true ∧ index < run.marksBefore ∧ run.change.Covers item

def CoveredOk (queue : WatchQueue Path) : Prop :=
  queue.registered = true → ∀ (index : Nat) (mark : WatchChange Path),
    queue.marks[index]? = some mark → ∀ item, mark.Covers item → queue.Covered index item

omit [DecidableEq Path] in
/-- Claimed work stays claimed or pending, and pending work pending. -/
theorem Covered.keep (h : queue.Covered index item)
    (hwork : queue.control.pendingWork.change.Covers item →
      next.control.pendingWork.change.Covers item)
    (hclaim : ∀ claim, queue.worker.claim = some claim → claim.work.change.Covers item →
      next.worker.claim = some claim)
    (hruns : ∀ run ∈ queue.runs, run.outcome = some true → run ∈ next.runs) :
    next.Covered index item := by
  cases h with
  | inl hpending => exact .inl (hwork hpending)
  | inr hrest =>
    cases hrest with
    | inl hclaimed =>
      obtain ⟨claim, hown, hlt, hcovers⟩ := hclaimed
      exact .inr (.inl ⟨claim, hclaim claim hown hcovers, hlt, hcovers⟩)
    | inr hrun =>
      obtain ⟨run, hmem, hsuccess, hlt, hcovers⟩ := hrun
      exact .inr (.inr ⟨run, hruns run hmem hsuccess, hsuccess, hlt, hcovers⟩)

/-- A call marks more work: all that it asks for is pending. -/
theorem CoveredOk.mark (h : queue.CoveredOk) (call : WatchCall Path)
    (hregistered : next.registered = queue.registered)
    (hcontrol : next.control = queue.control.mark call)
    (hmarks : next.marks = queue.marks ++ [call.change]) (hruns : next.runs = queue.runs)
    (hclaim : ∀ claim item, queue.worker.claim = some claim → claim.work.change.Covers item →
      next.worker.claim = some claim ∨ call.change.Covers item) : next.CoveredOk := by
  intro hstill index mark hmark item hitem
  rw [hmarks] at hmark
  have hpending : call.change.Covers item → next.Covered index item := by
    intro hcovers
    refine .inl ?_
    rw [hcontrol]
    exact (queue.control.mark_covers call item).mpr (.inr hcovers)
  cases ForStd.getElem?_concat_eq_some hmark with
  | inl hold =>
    by_cases hcovers : call.change.Covers item
    · exact hpending hcovers
    · refine (h (hregistered ▸ hstill) index mark hold item hitem).keep ?_ ?_ ?_
      · intro hwork
        rw [hcontrol]
        exact (queue.control.mark_covers call item).mpr (.inl hwork)
      · intro claim hown hclaimed
        exact (hclaim claim item hown hclaimed).resolve_right hcovers
      · rw [hruns]
        exact fun _ hrun _ => hrun
  | inr hnew =>
    rw [hnew.2] at hitem
    exact hpending hitem

/-- A step that marks nothing. -/
theorem CoveredOk.keep (h : queue.CoveredOk) (hruns : queue.RunsOk) (hstep : WatchStep queue next)
    (hregistered : next.registered = queue.registered) (hmarks : next.marks = queue.marks)
    (hwork : queue.registered = true → ∀ item, queue.control.pendingWork.change.Covers item →
      next.control.pendingWork.change.Covers item)
    (hclaim : queue.registered = true → ∀ claim item, queue.worker.claim = some claim →
      claim.work.change.Covers item → next.worker.claim = some claim) : next.CoveredOk := by
  intro hstill index mark hmark item hitem
  rw [hregistered] at hstill
  rw [hmarks] at hmark
  exact (h hstill index mark hmark item hitem).keep (hwork hstill item)
    (fun claim => hclaim hstill claim item) fun _ hrun hsuccess => hruns.succeeded hstep hrun hsuccess

omit [DecidableEq Path] in
/-- What the worker takes was marked before. -/
theorem CoveredOk.take (h : queue.CoveredOk) (hworker : queue.worker = .taking) :
    ({ queue.goTo (.claimed ⟨queue.control.pendingWork, queue.marks.length⟩) with
      control := queue.control.takePendingWork } : WatchQueue Path).CoveredOk := by
  intro hstill index mark hmark item hitem
  cases h hstill index mark hmark item hitem with
  | inl hpending =>
    exact .inr (.inl ⟨_, rfl, (List.getElem?_eq_some_iff.mp hmark).1, hpending⟩)
  | inr hrest =>
    cases hrest with
    | inl hclaimed =>
      obtain ⟨claim, hown, -⟩ := hclaimed
      rw [hworker] at hown
      cases hown
    | inr hrun => exact .inr (.inr hrun)

omit [DecidableEq Path] in
/-- What the worker has claimed is covered by its run, once the run has succeeded. -/
theorem CoveredOk.succeed (h : queue.CoveredOk) (hruns : queue.RunsOk) {claim : WatchClaim Path}
    {run : Nat} (hworker : queue.worker = .running claim run) :
    ((queue.finishRun run true).goTo .succeeded).CoveredOk := by
  obtain ⟨entry, hentry, -, hopen, hmarks, hcovers, -⟩ := hruns.running claim run hworker
  intro hstill index mark hmark item hitem
  cases h hstill index mark hmark item hitem with
  | inl hpending => exact .inl hpending
  | inr hrest =>
    refine .inr (.inr ?_)
    cases hrest with
    | inl hclaimed =>
      obtain ⟨own, hown, hlt, hitem'⟩ := hclaimed
      rw [hworker] at hown
      cases hown
      exact ⟨_, finished_mem hentry true, rfl, Nat.lt_of_lt_of_le hlt hmarks, hcovers item hitem'⟩
    | inr hrun =>
      obtain ⟨other, hmem, hsuccess, hrest⟩ := hrun
      exact ⟨other, mem_finishRun hentry hopen true hmem hsuccess, hsuccess, hrest⟩

theorem CoveredOk.step (h : queue.CoveredOk) (hflags : queue.FlagsOk) (hruns : queue.RunsOk)
    (hstep : WatchStep queue next) : next.CoveredOk := by
  have hkeep := h.keep hruns hstep
  cases hstep with
  | call call => exact h.mark call rfl rfl rfl rfl fun _ _ hown _ => .inl hown
  | workerCall call worker hcalls =>
    refine h.mark call rfl rfl rfl rfl ?_
    intro claim item hown hcovers
    generalize queue.worker = before at hcalls hown
    cases hcalls with
    | markExternal => cases hown
    | requeue claim error => exact .inr trivial
  | take hworker hwork => exact h.take hworker
  | succeed claim run hworker => exact h.succeed hruns hworker
  | notifyOne hnotifying => exact hkeep rfl rfl (fun _ _ => id) fun _ _ _ hown _ => hown
  | startScan hregistered => exact hkeep rfl rfl (fun _ _ => id) fun _ _ _ hown _ => hown
  | finishScan index run success hscan =>
    exact hkeep rfl rfl (fun _ _ => id) fun _ _ _ hown _ => hown
  | completeScan index stage hscan =>
    refine hkeep rfl rfl ?_ fun _ _ _ hown _ => hown
    intro hregistered item hcovers
    show (queue.control.complete stage).1.pendingWork.change.Covers item
    rw [(queue.control.complete_frame stage).2.2.2.2]
    exact hcovers
  | wake hworker hnotify =>
    refine hkeep rfl rfl (fun _ _ => id) ?_
    intro hregistered claim item hown
    rw [hworker] at hown
    cases hown
  | move worker hmove =>
    exact hkeep rfl rfl (fun _ _ => id) fun hregistered _ _ =>
      hmove.claim_of_covers (hflags.active hregistered)
  | enter hworker =>
    refine hkeep rfl rfl (fun _ _ => id) ?_
    intro hregistered claim item hown
    rw [hworker] at hown
    cases hown
  | countClaim claim hworker =>
    refine hkeep rfl rfl (fun _ _ => id) ?_
    intro hregistered other item hown hcovers
    rw [hworker] at hown
    exact hown
  | startRun claim hworker =>
    refine hkeep rfl rfl (fun _ _ => id) ?_
    intro hregistered other item hown hcovers
    rw [hworker] at hown
    exact hown
  | fail claim run error hworker =>
    refine hkeep rfl rfl (fun _ _ => id) ?_
    intro hregistered other item hown hcovers
    rw [hworker] at hown
    exact hown
  | workerNotify worker hnotifies =>
    refine hkeep rfl rfl (fun _ _ => id) ?_
    intro hregistered claim item hown
    generalize queue.worker = before at hnotifies hown
    cases hnotifies with
    | external => cases hown
    | requeued => cases hown
  | complete worker stage hworker hcompletes =>
    refine hkeep rfl rfl ?_ ?_
    · intro hregistered item hcovers
      show (queue.control.complete stage).1.pendingWork.change.Covers item
      rw [(queue.control.complete_frame stage).2.2.2.2]
      exact hcovers
    · intro hregistered claim item hown
      rw [hworker] at hown
      cases hcompletes with
      | completing => cases hown
      | publishing => cases hown
  | release claim error hworker => exact fun hstill => absurd hstill Bool.false_ne_true
  | sendFailed claim error hworker =>
    refine hkeep rfl rfl ?_ ?_
    · intro hregistered item hcovers
      show (if _ then _ else _ : WatchControl Path).pendingWork.change.Covers item
      rw [(queue.control.failed_frame error).2.2.2.2.2]
      exact hcovers
    · intro hregistered other item hown hcovers
      rw [hworker] at hown
      exact hown
  | exit hworker =>
    refine hkeep rfl rfl (fun _ _ => id) ?_
    intro hregistered claim item hown
    rw [hworker] at hown
    cases hown
  | unregister => exact fun hstill => absurd hstill Bool.false_ne_true
  | stop hregistered =>
    intro hstill
    have hstill' : queue.registered = true := hstill
    rw [hregistered] at hstill'
    cases hstill'

/-! ## Wake-ups -/

/-- While work is pending, the worker is on its way to the queue, or a permit is stored, or
    the call that has marked the work has not yet notified. -/
def AwakeOk (queue : WatchQueue Path) : Prop :=
  queue.registered = true → queue.control.pendingWork.change ≠ .none →
    queue.worker.WillTake ∨ queue.control.notify = true ∨ 0 < queue.notifying

theorem AwakeOk.step (h : queue.AwakeOk) (hflags : queue.FlagsOk) (hstep : WatchStep queue next) :
    next.AwakeOk := by
  cases hstep with
  | call call => exact fun _ _ => .inr (.inr (Nat.succ_pos _))
  | notifyOne hnotifying => exact fun _ _ => .inr (.inl rfl)
  | workerNotify worker hnotifies => exact fun _ _ => .inr (.inl rfl)
  | startScan hregistered => exact h
  | finishScan index run success hscan => exact h
  | completeScan index stage hscan =>
    obtain ⟨-, -, -, hnotify, hwork⟩ := queue.control.complete_frame stage
    unfold AwakeOk
    show _ → (queue.control.complete stage).1.pendingWork.change ≠ _ →
      _ ∨ (queue.control.complete stage).1.notify = true ∨ _
    rw [hnotify, hwork]
    exact h
  | wake hworker hnotify => exact fun _ _ => .inl trivial
  | move worker hmove =>
    intro hregistered hwork
    exact (h hregistered hwork).imp_left
      (hmove.willTake (hflags.active hregistered) hwork)
  | enter hworker =>
    intro hregistered hwork
    have hindexing : queue.control.indexing = false :=
      hflags.indexing.trans (by rw [hworker]; rfl)
    refine .inl ?_
    show (if queue.control.indexing then _ else _ : WatchWorker Path).WillTake
    rw [hindexing]
    trivial
  | take hworker hwork => exact fun _ _ => .inl trivial
  | countClaim claim hworker => exact fun _ _ => .inl trivial
  | startRun claim hworker => exact fun _ _ => .inl trivial
  | succeed claim run hworker => exact fun _ _ => .inl trivial
  | fail claim run error hworker => exact fun _ _ => .inl trivial
  | workerCall call worker hcalls =>
    intro hregistered hwork
    refine .inl ?_
    show worker.WillTake
    generalize queue.worker = before at hcalls
    cases hcalls with
    | markExternal => trivial
    | requeue claim error => trivial
  | complete worker stage hworker hcompletes =>
    obtain ⟨-, -, -, hnotify, hwork⟩ := queue.control.complete_frame stage
    cases hcompletes with
    | completing => exact fun _ _ => .inl trivial
    | publishing =>
      unfold AwakeOk at h ⊢
      rw [hworker] at h
      show _ → (queue.control.complete stage).1.pendingWork.change ≠ _ →
        _ ∨ (queue.control.complete stage).1.notify = true ∨ _
      rw [hnotify, hwork]
      exact h
  | release claim error hworker => exact fun hstill => absurd hstill Bool.false_ne_true
  | sendFailed claim error hworker => exact fun _ _ => .inl trivial
  | exit hworker =>
    unfold AwakeOk at h
    rw [hworker] at h
    exact h
  | unregister => exact fun hstill => absurd hstill Bool.false_ne_true
  | stop hregistered =>
    intro hstill
    have hstill' : queue.registered = true := hstill
    rw [hregistered] at hstill'
    cases hstill'

/-! ## Failed runs -/

/-- A failed run of the worker is being handled, or a full reconciliation has been marked
    since it started. -/
def FailedOk (queue : WatchQueue Path) : Prop :=
  queue.registered = true → ∀ run ∈ queue.runs, run.explicit = false → run.outcome = some false →
    queue.worker.Failing ∨ ∃ index, run.marksBefore ≤ index ∧
      queue.marks[index]? = some .fullReconciliation

omit [DecidableEq Path] in
/-- A step in which no run fails. -/
theorem FailedOk.keep (h : queue.FailedOk)
    (hregistered : next.registered = true → queue.registered = true)
    (hruns : ∀ run ∈ next.runs, run.explicit = false → run.outcome = some false → run ∈ queue.runs)
    (hmarks : ∀ (index : Nat) (mark : WatchChange Path), queue.marks[index]? = some mark →
      next.marks[index]? = some mark)
    (hfailing : queue.worker.Failing → next.worker.Failing) : next.FailedOk := by
  intro hstill run hrun hworkers hfailed
  cases h (hregistered hstill) run (hruns run hrun hworkers hfailed) hworkers hfailed with
  | inl hhandled => exact .inl (hfailing hhandled)
  | inr hmarked =>
    obtain ⟨index, hle, hmark⟩ := hmarked
    exact .inr ⟨index, hle, hmarks index _ hmark⟩

theorem marks_append (call : WatchCall Path) (index : Nat) (mark : WatchChange Path)
    (h : queue.marks[index]? = some mark) : (queue.mark call).marks[index]? = some mark := by
  show (queue.marks ++ [_])[index]? = some mark
  rw [List.getElem?_append_left (List.getElem?_eq_some_iff.mp h).1, h]

theorem FailedOk.step (h : queue.FailedOk) (hruns : queue.RunsOk) (hstep : WatchStep queue next) :
    next.FailedOk := by
  cases hstep with
  | call call => exact h.keep id (fun _ hrun _ _ => hrun) (marks_append call) id
  | workerCall call worker hcalls =>
    intro hstill run hrun hworkers hfailed
    cases h hstill run hrun hworkers hfailed with
    | inl hhandled =>
      generalize queue.worker = before at hcalls hhandled
      cases hcalls with
      | markExternal => exact hhandled.elim
      | requeue claim error =>
        exact .inr ⟨queue.marks.length, hruns.counted run hrun, List.getElem?_concat_length⟩
    | inr hmarked =>
      obtain ⟨index, hle, hmark⟩ := hmarked
      exact .inr ⟨index, hle, marks_append call index _ hmark⟩
  | notifyOne hnotifying => exact h
  | startScan hregistered =>
    refine h.keep id ?_ (fun _ _ => id) id
    intro run hrun hworkers hfailed
    cases List.mem_append.mp hrun with
    | inl hold => exact hold
    | inr hnew =>
      rw [List.mem_singleton.mp hnew] at hfailed
      cases hfailed
  | finishScan index run success hscan =>
    refine h.keep id ?_ (fun _ _ => id) id
    intro other hother hworkers hfailed
    cases of_mem_finishRun hother with
    | inl hold => exact hold
    | inr hended =>
      obtain ⟨entry, hentry, rfl⟩ := hended
      obtain ⟨found, hfound, hexplicit, -⟩ := hruns.scans index run hscan
      rw [hentry] at hfound
      cases hfound
      rw [show entry.explicit = false from hworkers] at hexplicit
      cases hexplicit
  | completeScan index stage hscan => exact h
  | wake hworker hnotify =>
    refine h.keep id (fun _ hrun _ _ => hrun) (fun _ _ => id) ?_
    rw [hworker]
    exact False.elim
  | move worker hmove =>
    refine h.keep id (fun _ hrun _ _ => hrun) (fun _ _ => id) ?_
    intro hhandled
    generalize queue.worker = before at hmove hhandled
    cases hmove with
    | refuse claim error => trivial
    | _ => exact hhandled.elim
  | enter hworker =>
    refine h.keep id (fun _ hrun _ _ => hrun) (fun _ _ => id) ?_
    rw [hworker]
    exact False.elim
  | take hworker hwork =>
    refine h.keep id (fun _ hrun _ _ => hrun) (fun _ _ => id) ?_
    rw [hworker]
    exact False.elim
  | countClaim claim hworker =>
    refine h.keep id (fun _ hrun _ _ => hrun) (fun _ _ => id) ?_
    rw [hworker]
    exact False.elim
  | startRun claim hworker =>
    refine h.keep id ?_ (fun _ _ => id) ?_
    · intro run hrun hworkers hfailed
      cases List.mem_append.mp hrun with
      | inl hold => exact hold
      | inr hnew =>
        rw [List.mem_singleton.mp hnew] at hfailed
        cases hfailed
    · rw [hworker]
      exact False.elim
  | succeed claim run hworker =>
    refine h.keep id ?_ (fun _ _ => id) ?_
    · intro other hother hworkers hfailed
      cases of_mem_finishRun hother with
      | inl hold => exact hold
      | inr hended =>
        obtain ⟨entry, -, rfl⟩ := hended
        cases hfailed
    · rw [hworker]
      exact False.elim
  | fail claim run error hworker => exact fun _ _ _ _ _ => .inl trivial
  | workerNotify worker hnotifies =>
    refine h.keep id (fun _ hrun _ _ => hrun) (fun _ _ => id) ?_
    intro hhandled
    generalize queue.worker = before at hnotifies hhandled
    cases hnotifies with
    | external => exact hhandled.elim
    | requeued => exact hhandled.elim
  | complete worker stage hworker hcompletes =>
    refine h.keep id (fun _ hrun _ _ => hrun) (fun _ _ => id) ?_
    rw [hworker]
    intro hhandled
    cases hcompletes with
    | completing => exact hhandled.elim
    | publishing => exact hhandled.elim
  | release claim error hworker => exact fun hstill => absurd hstill Bool.false_ne_true
  | sendFailed claim error hworker => exact fun _ _ _ _ _ => .inl trivial
  | exit hworker =>
    refine h.keep id (fun _ hrun _ _ => hrun) (fun _ _ => id) ?_
    rw [hworker]
    exact False.elim
  | unregister => exact fun hstill => absurd hstill Bool.false_ne_true
  | stop hregistered =>
    intro hstill
    have hstill' : queue.registered = true := hstill
    rw [hregistered] at hstill'
    cases hstill'

/-! ## Readiness -/

omit [DecidableEq Path] in
theorem claim_of_not_inLoop {worker : WatchWorker Path} (h : worker.inLoop = false) :
    worker.claim = none := by
  cases worker with
  | parked | awake | settled | entering | publishing | leaving | stopped => rfl
  | _ => cases h

/-- A step publishes `Ready` only when all is caught up. -/
theorem ready_step (hflags : queue.FlagsOk) (hscan : queue.ScanOk) (hstep : WatchStep queue next)
    (hbefore : queue.control.readiness ≠ .ready) (hready : next.control.readiness = .ready) :
    queue.ScanDone ∧ queue.control.pendingWork.change = .none ∧ queue.worker.claim = none := by
  have hcomplete : ∀ stage, (queue.control.complete stage).1.readiness = .ready →
      queue.ScanDone ∧ queue.control.pendingWork.change = .none ∧ queue.worker.claim = none := by
    intro stage hstage
    obtain ⟨-, hrequired, hwork, hindexing⟩ := queue.control.complete_readiness stage
      (fun hsame => hbefore (hsame.symm.trans hstage))
    exact ⟨hscan.done hrequired, hwork, claim_of_not_inLoop (hflags.indexing.symm.trans hindexing)⟩
  cases hstep with
  | completeScan index stage hfound => exact hcomplete stage hready
  | complete worker stage hworker hcompletes => exact hcomplete stage hready
  | call call =>
    exact absurd ((queue.control.mark_frame call).2.2.2.2.symm.trans hready) hbefore
  | workerCall call worker hcalls =>
    exact absurd ((queue.control.mark_frame call).2.2.2.2.symm.trans hready) hbefore
  | release claim error hworker =>
    have hready' : (if queue.registered then queue.control.stop else queue.control).readiness =
      .ready := hready
    split at hready'
    · cases hready'
    · exact absurd hready' hbefore
  | sendFailed claim error hworker =>
    have hready' : (if queue.control.initialReconciliationPending then
      queue.control.sendReadiness (.failed error) else queue.control).readiness = .ready := hready
    split at hready'
    · unfold WatchControl.sendReadiness at hready'
      split at hready'
      · exact absurd hready' hbefore
      · cases hready'
    · exact absurd hready' hbefore
  | stop hregistered => cases hready
  | notifyOne hnotifying => exact absurd hready hbefore
  | startScan hregistered => exact absurd hready hbefore
  | finishScan index run success hfound => exact absurd hready hbefore
  | wake hworker hnotify => exact absurd hready hbefore
  | move worker hmove => exact absurd hready hbefore
  | enter hworker => exact absurd hready hbefore
  | take hworker hwork => exact absurd hready hbefore
  | countClaim claim hworker => exact absurd hready hbefore
  | startRun claim hworker => exact absurd hready hbefore
  | succeed claim run hworker => exact absurd hready hbefore
  | fail claim run error hworker => exact absurd hready hbefore
  | workerNotify worker hnotifies => exact absurd hready hbefore
  | exit hworker => exact absurd hready hbefore
  | unregister => exact absurd hready hbefore

end WatchQueue

/-! ## Runs of the watcher -/

/-- The states that a watcher reaches after it has been registered. -/
inductive WatchQueueRun : WatchQueue Path → Prop where
  | new : WatchQueueRun .new
  | step {queue next : WatchQueue Path} (hrun : WatchQueueRun queue)
      (hstep : WatchStep queue next) : WatchQueueRun next

/-- All that the steps keep. -/
structure WatchQueue.Ok (queue : WatchQueue Path) : Prop where
  flags : queue.FlagsOk
  runs : queue.RunsOk
  scan : queue.ScanOk
  covered : queue.CoveredOk
  awake : queue.AwakeOk
  failed : queue.FailedOk

omit [DecidableEq Path] in
theorem WatchQueue.new_ok : (WatchQueue.new : WatchQueue Path).Ok where
  flags := ⟨fun _ => rfl, rfl, by simp [new, WatchControl.new, PendingWatchWork.default]⟩
  runs := ⟨by simp [new], by simp [new, WatchWorker.claim], by simp [new], by simp [new],
    by simp [new]⟩
  scan := ⟨by simp [new, WatchControl.new], trivial, by simp [new]⟩
  covered := by simp [CoveredOk, new]
  awake := fun _ _ => .inr (.inl rfl)
  failed := by simp [FailedOk, new]

theorem WatchQueueRun.ok {queue : WatchQueue Path} (h : WatchQueueRun queue) : queue.Ok := by
  induction h with
  | new => exact WatchQueue.new_ok
  | step hrun hstep ih =>
    exact ⟨ih.flags.step hstep, ih.runs.step ih.scan hstep, ih.scan.step ih.runs hstep,
      ih.covered.step ih.flags ih.runs hstep, ih.awake.step ih.flags hstep,
      ih.failed.step ih.runs hstep⟩

/-- While a watcher is registered: it is active; all that has been marked is pending,
    claimed, or covered by a run that started after the mark and has succeeded; a failed run
    of the worker is being handled, or followed by a full reconciliation; while work is
    pending, the worker is on its way to the queue, a permit is stored, or the call that has
    marked the work has still to notify; and `Ready` is published only after a full run that
    has succeeded, with nothing pending or claimed. -/
theorem watchQueue_correct {queue : WatchQueue Path} (h : WatchQueueRun queue)
    (hregistered : queue.registered = true) :
    queue.control.active = true ∧
    (∀ (index : Nat) (mark : WatchChange Path), queue.marks[index]? = some mark →
      ∀ item, mark.Covers item → queue.Covered index item) ∧
    (∀ run ∈ queue.runs, run.explicit = false → run.outcome = some false →
      queue.worker.Failing ∨ ∃ index, run.marksBefore ≤ index ∧
        queue.Covered index .everything) ∧
    (queue.control.pendingWork.change ≠ .none →
      queue.worker.WillTake ∨ queue.control.notify = true ∨ 0 < queue.notifying) ∧
    ∀ next, WatchStep queue next → queue.control.readiness ≠ .ready →
      next.control.readiness = .ready →
        queue.ScanDone ∧ queue.control.pendingWork.change = .none ∧ queue.worker.claim = none := by
  obtain ⟨hflags, hruns, hscan, hcovered, hawake, hfailed⟩ := h.ok
  refine ⟨hflags.active hregistered, hcovered hregistered, ?_, hawake hregistered,
    fun next hstep => WatchQueue.ready_step hflags hscan hstep⟩
  intro run hrun hworkers houtcome
  cases hfailed hregistered run hrun hworkers houtcome with
  | inl hhandled => exact .inl hhandled
  | inr hmarked =>
    obtain ⟨index, hle, hmark⟩ := hmarked
    exact .inr ⟨index, hle, hcovered hregistered index _ hmark .everything trivial⟩

/-- A watcher whose phase is `idle` has nothing pending and nothing claimed. -/
theorem idle_phase {queue : WatchQueue Path} (h : WatchQueueRun queue)
    (hphase : queue.control.snapshotPhase = "idle".toList) :
    queue.control.pendingWork.change = .none ∧ queue.worker.claim = none := by
  have hflags := h.ok.flags
  unfold WatchControl.snapshotPhase at hphase
  split at hphase
  · exact absurd hphase (by decide)
  · split at hphase
    · exact absurd hphase (by decide)
    · rename_i hindexing
      split at hphase
      · exact absurd hphase (by decide)
      · rename_i hdirty
        refine ⟨?_, WatchQueue.claim_of_not_inLoop ?_⟩
        · by_contra hwork
          exact hdirty (hflags.dirty.mpr hwork)
        · exact hflags.indexing.symm.trans (Bool.eq_false_iff.mpr hindexing)

/-! ## Sample runs -/

/-- The worker has made the initial scan, and has published `Ready`. -/
private def readyControl : WatchControl Nat where
  notify := false
  dirty := false
  indexing := false
  retrying := false
  active := true
  initialScanRequired := false
  initialReconciliationPending := false
  readiness := .ready
  pendingEvents := 0
  coalescedEvents := 0
  pendingWork := .default

private def scanRun : WatchRun Nat := ⟨.fullReconciliation, false, 0, some true⟩

private theorem scannedRun : WatchQueueRun (⟨{ readyControl with
    indexing := true, initialReconciliationPending := true, readiness := .reconciling },
      true, .completing .done, [], 0, [], [scanRun]⟩ : WatchQueue Nat) := by
  have hnew : WatchQueueRun (WatchQueue.new : WatchQueue Nat) := .new
  have hentered := (((hnew.step (.wake _ rfl rfl)).step (.move _ _ .settle)).step
    (.move _ _ .rouse)).step (.enter _ rfl)
  have hclaimed := ((hentered.step (.move _ _ .loop)).step (.move _ _ (.takeNone rfl))).step
    (.move _ _ .claimScan)
  have hstarted := ((hclaimed.step (.countClaim _ ⟨.default, 0⟩ rfl)).step
    (.move _ _ (.decide ⟨.default, 0⟩ rfl fun _ => rfl))).step (.startRun _ ⟨.default, 0⟩ rfl)
  have hchecked := (hstarted.step (.succeed _ ⟨.default, 0⟩ 0 rfl)).step (.move _ _ .report)
  have hcompleted := (((hchecked.step (.complete _ _ .checking rfl .completing)).step
    (.complete _ _ .storing rfl .completing)).step (.complete _ _ .looking rfl .completing)).step
    (.complete _ _ .publishing rfl .completing)
  exact hcompleted

private theorem readyRun :
    WatchQueueRun (⟨readyControl, true, .parked, [], 0, [], [scanRun]⟩ : WatchQueue Nat) := by
  have hlooked := (((scannedRun.step (.move _ _ .completed)).step (.move _ _ .loopAgain)).step
    (.move _ _ .loop)).step (.move _ _ (.takeNone rfl))
  have hexited := (hlooked.step (.move _ _ .claimScan)).step (.exit _ rfl)
  have hpublished := (hexited.step (.complete _ _ .looking rfl .publishing)).step
    (.complete _ _ .publishing rfl .publishing)
  have hparked := (hpublished.step (.move _ _ .published)).step (.move _ _ .leave)
  exact hparked

/-- A path has been marked, and the call has not yet notified the worker. -/
private def markedQueue : WatchQueue Nat :=
  { (⟨readyControl, true, .parked, [], 0, [], [scanRun]⟩ : WatchQueue Nat).mark
      (.markPathsDirty {7} (Finset.singleton_nonempty 7)) with notifying := 1 }

private theorem markedRun : WatchQueueRun markedQueue := by
  have hmarked := readyRun.step (.call _ (.markPathsDirty {7} (Finset.singleton_nonempty 7)))
  exact hmarked

/-- The path that has been marked is pending, and the worker has a permit. -/
theorem watchQueue_correct_sample :
    ∃ queue : WatchQueue Nat, WatchQueueRun queue ∧ queue.registered = true ∧
      queue.marks = [.paths {7}] ∧ queue.Covered 0 (.path 7) ∧
      (queue.worker.WillTake ∨ queue.control.notify = true ∨ 0 < queue.notifying) := by
  have hnotified := markedRun.step (.notifyOne _ (Nat.succ_pos 0))
  obtain ⟨-, hcovered, -, hawake, -⟩ := watchQueue_correct hnotified rfl
  refine ⟨_, hnotified, rfl, rfl, ?_, hawake ?_⟩
  · exact hcovered 0 (.paths {7}) rfl (.path 7) (Finset.mem_singleton_self 7)
  · exact readyControl.mark_change_ne_none _

/-- Work is pending while the worker sleeps without a permit, since the call that has marked
    it has still to notify; and an explicit run that fails queues nothing. -/
theorem watchQueue_not_notified :
    (∃ queue : WatchQueue Nat, WatchQueueRun queue ∧ queue.registered = true ∧
      queue.control.pendingWork.change ≠ .none ∧ queue.worker = .parked ∧
      queue.control.notify = false) ∧
    ∃ queue : WatchQueue Nat, WatchQueueRun queue ∧ queue.registered = true ∧
      (∃ run ∈ queue.runs, run.explicit = true ∧ run.outcome = some false) ∧
      queue.marks = [] ∧ queue.control.pendingWork.change = .none := by
  refine ⟨⟨_, markedRun, rfl, readyControl.mark_change_ne_none _, rfl, rfl⟩, ?_⟩
  have hfailed := (readyRun.step (.startScan _ rfl)).step (.finishScan _ 0 1 false rfl)
  refine ⟨_, hfailed, rfl, ⟨⟨.fullReconciliation, true, 0, some false⟩, ?_, rfl, rfl⟩, rfl, rfl⟩
  exact List.mem_of_getElem? (i := 1) rfl

end Ivygrep.Native
