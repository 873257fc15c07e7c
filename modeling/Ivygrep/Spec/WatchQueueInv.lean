import Ivygrep.ForStd.List
import Ivygrep.Native.WatchQueue

/-!
# Invariants of the watch queue

What every step of the callbacks, the explicit runs and the worker keeps: the flag of the
claimed work, the runs that go on, the initial scan, the marked work and the wake-ups.
-/

namespace Ivygrep.Native

variable {Path : Type} [DecidableEq Path]

/-- What a mark asks for: one path, or everything. -/
inductive WatchItem (Path : Type) where
  | path (path : Path)
  | everything

def WatchChange.Covers (change : WatchChange Path) (item : WatchItem Path) : Prop :=
  match change, item with
  | .none, _ => False
  | .paths changed, .path path => path ∈ changed
  | .paths _, .everything => False
  | .fullReconciliation, _ => True

namespace WatchWorker

/-- The claim of the run in progress, until its work is queued again. -/
def claim (worker : WatchWorker Path) : Option (WatchClaim Path) :=
  match worker with
  | .claimed claim | .admitted claim | .deciding claim | .running claim _ | .failing claim _
  | .requeueing claim _ => some claim
  | _ => none

/-- The worker is in the loop that takes work, where `indexing` is set. -/
def inLoop (worker : WatchWorker Path) : Bool :=
  match worker with
  | .parked | .awake | .settled | .entering | .publishing _ | .leaving | .stopped => false
  | _ => true

/-- The worker will look at the queue again before it awaits a notification. -/
def WillTake (worker : WatchWorker Path) : Prop :=
  match worker with
  | .parked | .unclaimed | .exiting | .publishing _ | .leaving | .stopped => False
  | _ => True

/-- The worker has not yet queued the work of a failed run again. -/
def Failing (worker : WatchWorker Path) : Prop :=
  match worker with
  | .failing .. | .requeueing .. => True
  | _ => False

end WatchWorker

/-! ## What the operations leave as it is -/

namespace WatchControl

variable (control : WatchControl Path)

theorem mark_covers (call : WatchCall Path) (item : WatchItem Path) :
    (control.mark call).pendingWork.change.Covers item ↔
      control.pendingWork.change.Covers item ∨ call.change.Covers item := by
  cases call with
  | markPathsDirty paths hpaths =>
    show (WatchControl.markPathsDirty control paths).pendingWork.change.Covers item ↔ _
    unfold WatchControl.markPathsDirty WatchCall.change
    cases hchange : control.pendingWork.change with
    | none => simp [WatchChange.Covers]
    | paths existing =>
      cases item with
      | path path => simp [WatchChange.Covers]
      | everything => simp [WatchChange.Covers]
    | fullReconciliation => simp [WatchChange.Covers]
  | markFullReconciliation backendError => exact ⟨fun _ => .inr trivial, fun _ => trivial⟩
  | requeueFailedIndex error => exact ⟨fun _ => .inr trivial, fun _ => trivial⟩

theorem mark_change_ne_none (call : WatchCall Path) :
    (control.mark call).pendingWork.change ≠ .none := by
  cases call with
  | markPathsDirty paths hpaths =>
    show (WatchControl.markPathsDirty control paths).pendingWork.change ≠ .none
    unfold WatchControl.markPathsDirty
    simp only
    split <;> simp
  | markFullReconciliation backendError =>
    intro hnone
    cases hnone
  | requeueFailedIndex error =>
    intro hnone
    cases hnone

theorem mark_frame (call : WatchCall Path) :
    (control.mark call).active = control.active ∧
      (control.mark call).indexing = control.indexing ∧
      (control.mark call).dirty = true ∧
      (control.mark call).initialScanRequired = control.initialScanRequired ∧
      (control.mark call).readiness = control.readiness := by
  cases call with
  | markPathsDirty paths hpaths => exact ⟨rfl, rfl, rfl, rfl, rfl⟩
  | markFullReconciliation backendError => exact ⟨rfl, rfl, rfl, rfl, rfl⟩
  | requeueFailedIndex error => exact ⟨rfl, rfl, rfl, rfl, rfl⟩

omit [DecidableEq Path] in
theorem sendReadiness_frame (readiness : WatchReadiness) :
    (control.sendReadiness readiness).active = control.active ∧
      (control.sendReadiness readiness).indexing = control.indexing ∧
      (control.sendReadiness readiness).dirty = control.dirty ∧
      (control.sendReadiness readiness).notify = control.notify ∧
      (control.sendReadiness readiness).initialScanRequired = control.initialScanRequired ∧
      (control.sendReadiness readiness).pendingWork = control.pendingWork := by
  unfold sendReadiness
  split
  · exact ⟨rfl, rfl, rfl, rfl, rfl, rfl⟩
  · exact ⟨rfl, rfl, rfl, rfl, rfl, rfl⟩

theorem publishReadiness_frame :
    control.publishReadiness.active = control.active ∧
      control.publishReadiness.indexing = control.indexing ∧
      control.publishReadiness.dirty = control.dirty ∧
      control.publishReadiness.notify = control.notify ∧
      control.publishReadiness.initialScanRequired = control.initialScanRequired ∧
      control.publishReadiness.pendingWork = control.pendingWork := by
  unfold publishReadiness
  split
  · exact ⟨rfl, rfl, rfl, rfl, rfl, rfl⟩
  · exact sendReadiness_frame _ .ready

/-- `complete_initial_watch_reconciliation` leaves the queue alone. -/
theorem complete_frame (stage : CompletionStage) :
    (control.complete stage).1.active = control.active ∧
      (control.complete stage).1.indexing = control.indexing ∧
      (control.complete stage).1.dirty = control.dirty ∧
      (control.complete stage).1.notify = control.notify ∧
      (control.complete stage).1.pendingWork = control.pendingWork := by
  unfold complete
  cases stage with
  | checking =>
    simp only
    split
    · exact ⟨rfl, rfl, rfl, rfl, rfl⟩
    · exact ⟨rfl, rfl, rfl, rfl, rfl⟩
  | storing => exact ⟨rfl, rfl, rfl, rfl, rfl⟩
  | looking =>
    simp only
    split
    · exact ⟨rfl, rfl, rfl, rfl, rfl⟩
    · exact ⟨rfl, rfl, rfl, rfl, rfl⟩
  | publishing =>
    obtain ⟨hactive, hindexing, hdirty, hnotify, -, hwork⟩ := control.publishReadiness_frame
    exact ⟨hactive, hindexing, hdirty, hnotify, hwork⟩
  | done => exact ⟨rfl, rfl, rfl, rfl, rfl⟩

/-- Only its second step clears `initial_scan_required`. -/
theorem complete_initialScanRequired (stage : CompletionStage) :
    (control.complete stage).1.initialScanRequired = control.initialScanRequired ∨
      stage = .storing := by
  unfold complete
  cases stage with
  | checking =>
    simp only
    split
    · exact .inl rfl
    · exact .inl rfl
  | storing => exact .inr rfl
  | looking =>
    simp only
    split
    · exact .inl rfl
    · exact .inl rfl
  | publishing => exact .inl control.publishReadiness_frame.2.2.2.2.1
  | done => exact .inl rfl

/-- Only its last step changes the readiness: to `Ready`, when all is caught up. -/
theorem complete_readiness (stage : CompletionStage)
    (h : (control.complete stage).1.readiness ≠ control.readiness) :
    control.active = true ∧ control.initialScanRequired = false ∧
      control.pendingWork.change = .none ∧ control.indexing = false := by
  unfold complete at h
  cases stage with
  | checking =>
    simp only at h
    split at h
    · exact absurd rfl h
    · exact absurd rfl h
  | storing => exact absurd rfl h
  | looking =>
    simp only at h
    split at h
    · exact absurd rfl h
    · exact absurd rfl h
  | publishing =>
    simp only at h
    unfold publishReadiness at h
    split at h
    · exact absurd rfl h
    · rename_i hguard
      simp at hguard
      obtain ⟨⟨⟨⟨hactive, hscan⟩, hwork⟩, hindexing⟩, -⟩ := hguard
      exact ⟨hactive, hscan, hwork, hindexing⟩
  | done => exact absurd rfl h

omit [DecidableEq Path] in
/-- The report of a failed run leaves the queue alone. -/
theorem failed_frame (error : Str) :
    let failed := if control.initialReconciliationPending then
      control.sendReadiness (.failed error) else control
    failed.active = control.active ∧ failed.indexing = control.indexing ∧
      failed.dirty = control.dirty ∧ failed.notify = control.notify ∧
      failed.initialScanRequired = control.initialScanRequired ∧
      failed.pendingWork = control.pendingWork := by
  simp only
  split
  · exact sendReadiness_frame control _
  · exact ⟨rfl, rfl, rfl, rfl, rfl, rfl⟩

end WatchControl

/-! ## Steps of the worker that only read -/

section Moves

variable {queue : WatchQueue Path} {worker worker' : WatchWorker Path}

omit [DecidableEq Path]

theorem WatchMove.inLoop_eq (h : WatchMove queue worker worker') :
    worker'.inLoop = worker.inLoop := by
  cases h with
  | settle | rouse | loop | claimScan | leave => split <;> rfl
  | takeNone hnone => rfl
  | refuse claim error => rfl
  | skip claim hskip => rfl
  | decide claim hactive hwork => rfl
  | report | completed | loopAgain | published => rfl

/-- While work is pending, an active worker does not leave the way to the queue. -/
theorem WatchMove.willTake (h : WatchMove queue worker worker')
    (hactive : queue.control.active = true) (hwork : queue.control.pendingWork.change ≠ .none)
    (hwill : worker.WillTake) : worker'.WillTake := by
  cases h with
  | settle | rouse | loop =>
    rw [if_pos hactive]
    trivial
  | takeNone hnone => exact absurd hnone hwork
  | claimScan | leave | published => exact hwill.elim
  | refuse claim error => trivial
  | skip claim hskip => trivial
  | decide claim hactive hwork => trivial
  | report | completed | loopAgain => trivial

/-- Claimed work that asks for something stays claimed until it runs. -/
theorem WatchMove.claim_of_covers (h : WatchMove queue worker worker')
    (hactive : queue.control.active = true) {claim : WatchClaim Path} {item : WatchItem Path}
    (hclaim : worker.claim = some claim) (hcovers : claim.work.change.Covers item) :
    worker'.claim = some claim := by
  cases h with
  | refuse claim error => exact hclaim
  | decide claim hactive hwork => exact hclaim
  | skip claim hskip =>
    cases hclaim
    cases hskip with
    | inl hstopped =>
      rw [hactive] at hstopped
      cases hstopped
    | inr hstartup =>
      rw [hstartup.1] at hcovers
      exact hcovers.elim
  | settle | rouse | loop | claimScan | leave => cases hclaim
  | takeNone hnone => cases hclaim
  | report | completed | loopAgain | published => cases hclaim

theorem WatchMove.marksBefore_le (h : WatchMove queue worker worker') {claim : WatchClaim Path}
    (hclaim : worker'.claim = some claim) :
    worker.claim = some claim ∨ claim.marksBefore = queue.marks.length := by
  cases h with
  | refuse claim error => exact .inl hclaim
  | decide claim hactive hwork => exact .inl hclaim
  | skip claim hskip => cases hclaim
  | settle | rouse | loop | leave => split at hclaim <;> cases hclaim
  | claimScan =>
    split at hclaim
    · cases hclaim
      exact .inr rfl
    · cases hclaim
  | takeNone hnone => cases hclaim
  | report | completed | loopAgain | published => cases hclaim

theorem WatchMove.not_running (h : WatchMove queue worker worker') (claim : WatchClaim Path)
    (run : Nat) : worker' ≠ .running claim run := by
  cases h with
  | settle | rouse | loop | claimScan | leave => split <;> simp
  | takeNone hnone => simp
  | refuse claim error => simp
  | skip claim hskip => simp
  | decide claim hactive hwork => simp
  | report | completed | loopAgain | published => simp

end Moves

namespace WatchQueue

variable {queue next : WatchQueue Path}

/-! ## Flags -/

/-- A registered watcher is active; `indexing` is set exactly in the worker's loop, and
    `dirty` exactly while work is pending. -/
structure FlagsOk (queue : WatchQueue Path) : Prop where
  active : queue.registered = true → queue.control.active = true
  indexing : queue.control.indexing = queue.worker.inLoop
  dirty : queue.control.dirty = true ↔ queue.control.pendingWork.change ≠ .none

omit [DecidableEq Path] in
/-- A step that changes none of the flags. -/
theorem FlagsOk.congr (h : queue.FlagsOk)
    (hregistered : next.registered = true → queue.registered = true)
    (hactive : next.control.active = queue.control.active)
    (hindexing : next.control.indexing = queue.control.indexing)
    (hworker : next.worker.inLoop = queue.worker.inLoop)
    (hdirty : next.control.dirty = queue.control.dirty)
    (hwork : next.control.pendingWork = queue.control.pendingWork) : next.FlagsOk := by
  refine ⟨?_, ?_, ?_⟩
  · intro hstill
    rw [hactive]
    exact h.active (hregistered hstill)
  · rw [hindexing, hworker]
    exact h.indexing
  · rw [hdirty, hwork]
    exact h.dirty

theorem FlagsOk.mark (h : queue.FlagsOk) (call : WatchCall Path)
    (hregistered : next.registered = queue.registered)
    (hcontrol : next.control = queue.control.mark call)
    (hworker : next.worker.inLoop = queue.worker.inLoop) : next.FlagsOk := by
  obtain ⟨hactive, hindexing, hdirty, -, -⟩ := queue.control.mark_frame call
  refine ⟨?_, ?_, ?_⟩
  · rw [hregistered, hcontrol, hactive]
    exact h.active
  · rw [hcontrol, hindexing, hworker]
    exact h.indexing
  · rw [hcontrol, hdirty]
    exact ⟨fun _ => queue.control.mark_change_ne_none call, fun _ => rfl⟩

theorem FlagsOk.step (h : queue.FlagsOk) (hstep : WatchStep queue next) : next.FlagsOk := by
  cases hstep with
  | call call => exact h.mark call rfl rfl rfl
  | workerCall call worker hcalls =>
    refine h.mark call rfl rfl ?_
    show worker.inLoop = queue.worker.inLoop
    cases hworker : queue.worker with
    | succeeded | requeueing claim error =>
      rw [hworker] at hcalls
      cases hcalls
      rfl
    | _ =>
      rw [hworker] at hcalls
      cases hcalls
  | notifyOne hnotifying => exact h.congr id rfl rfl rfl rfl rfl
  | startScan hregistered => exact h.congr id rfl rfl rfl rfl rfl
  | finishScan index run success hscan => exact h.congr id rfl rfl rfl rfl rfl
  | completeScan index stage hscan =>
    obtain ⟨hactive, hindexing, hdirty, -, hwork⟩ := queue.control.complete_frame stage
    exact h.congr id hactive hindexing rfl hdirty hwork
  | wake hworker hnotify => exact h.congr id rfl rfl (by rw [hworker]; rfl) rfl rfl
  | move worker hmove => exact h.congr id rfl rfl hmove.inLoop_eq rfl rfl
  | enter hworker =>
    have hindexing : queue.control.indexing = false := h.indexing.trans (by rw [hworker]; rfl)
    refine ⟨h.active, ?_, h.dirty⟩
    show true = (if queue.control.indexing then _ else _ : WatchWorker Path).inLoop
    rw [hindexing]
    rfl
  | take hworker hwork =>
    refine ⟨h.active, rfl, ?_⟩
    show false = true ↔ WatchChange.none ≠ .none
    simp
  | countClaim claim hworker => exact h.congr id rfl rfl (by rw [hworker]; rfl) rfl rfl
  | startRun claim hworker => exact h.congr id rfl rfl (by rw [hworker]; rfl) rfl rfl
  | succeed claim run hworker => exact h.congr id rfl rfl (by rw [hworker]; rfl) rfl rfl
  | fail claim run error hworker => exact h.congr id rfl rfl (by rw [hworker]; rfl) rfl rfl
  | workerNotify worker hnotifies =>
    refine h.congr id rfl rfl ?_ rfl rfl
    show worker.inLoop = queue.worker.inLoop
    cases hworker : queue.worker with
    | reporting | requeued =>
      rw [hworker] at hnotifies
      cases hnotifies
      rfl
    | _ =>
      rw [hworker] at hnotifies
      cases hnotifies
  | complete worker stage hworker hcompletes =>
    obtain ⟨hactive, hindexing, hdirty, -, hwork⟩ := queue.control.complete_frame stage
    refine h.congr id hactive hindexing ?_ hdirty hwork
    show (worker (queue.control.complete stage).2).inLoop = queue.worker.inLoop
    rw [hworker]
    cases hcompletes with
    | completing => rfl
    | publishing => rfl
  | release claim error hworker =>
    have hindexing : queue.control.indexing = true := h.indexing.trans (by rw [hworker]; rfl)
    refine ⟨fun hstill => absurd hstill Bool.false_ne_true, ?_, ?_⟩
    · show (if queue.registered then _ else _ : WatchControl Path).indexing = true
      split
      · exact hindexing
      · exact hindexing
    · show (if queue.registered then _ else _ : WatchControl Path).dirty = true ↔
        (if queue.registered then _ else _ : WatchControl Path).pendingWork.change ≠ .none
      split
      · exact h.dirty
      · exact h.dirty
  | sendFailed claim error hworker =>
    obtain ⟨hactive, hindexing, hdirty, -, -, hwork⟩ := queue.control.failed_frame error
    exact h.congr id hactive hindexing (by rw [hworker]; rfl) hdirty hwork
  | exit hworker => exact ⟨h.active, rfl, h.dirty⟩
  | unregister =>
    exact ⟨fun hstill => absurd hstill Bool.false_ne_true, h.indexing, h.dirty⟩
  | stop hregistered =>
    refine ⟨?_, ?_, h.dirty⟩
    · intro hstill
      have hstill' : queue.registered = true := hstill
      rw [hregistered] at hstill'
      cases hstill'
    · refine h.indexing.trans ?_
      show queue.worker.inLoop = (if queue.worker = .parked then _ else _ : WatchWorker Path).inLoop
      split
      · rename_i hparked
        rw [hparked]
        rfl
      · rfl

/-! ## Runs -/

/-- A full run that started after the watcher was registered has succeeded. -/
def ScanDone (queue : WatchQueue Path) : Prop :=
  ∃ run ∈ queue.runs, run.change = .fullReconciliation ∧ run.outcome = some true

/-- The runs that go on, of the worker and of explicit requests, are apart, and the worker's
    covers what it has claimed. -/
structure RunsOk (queue : WatchQueue Path) : Prop where
  counted : ∀ run ∈ queue.runs, run.marksBefore ≤ queue.marks.length
  claimed : ∀ claim, queue.worker.claim = some claim → claim.marksBefore ≤ queue.marks.length
  scans : ∀ (index run : Nat), queue.scans[index]? = some (.scanning run) →
    ∃ entry : WatchRun Path, queue.runs[run]? = some entry ∧ entry.explicit = true ∧
      entry.change = .fullReconciliation ∧ entry.outcome = none
  distinct : ∀ left right run : Nat, queue.scans[left]? = some (.scanning run) →
    queue.scans[right]? = some (.scanning run) → left = right
  running : ∀ (claim : WatchClaim Path) (run : Nat), queue.worker = .running claim run →
    ∃ entry : WatchRun Path, queue.runs[run]? = some entry ∧ entry.explicit = false ∧
      entry.outcome = none ∧ claim.marksBefore ≤ entry.marksBefore ∧
      (∀ item, claim.work.change.Covers item → entry.change.Covers item) ∧
      (entry.change = .fullReconciliation ∨ queue.ScanDone)

section

omit [DecidableEq Path]

theorem finishRun_getElem? (run number : Nat) (success : Bool) :
    (queue.finishRun run success).runs[number]? =
      if run = number then
        queue.runs[number]?.map fun entry => { entry with outcome := some success }
      else queue.runs[number]? := by
  show (queue.runs.modify run _)[number]? = _
  rw [List.getElem?_modify]
  split
  · rfl
  · simp

/-- A run that ends leaves the others as they are. -/
theorem mem_finishRun {run : Nat} {entry : WatchRun Path} (hentry : queue.runs[run]? = some entry)
    (hopen : entry.outcome = none) (success : Bool) {other : WatchRun Path}
    (hother : other ∈ queue.runs) (hsuccess : other.outcome = some true) :
    other ∈ (queue.finishRun run success).runs := by
  obtain ⟨number, hnumber⟩ := List.mem_iff_getElem?.mp hother
  apply List.mem_iff_getElem?.mpr
  refine ⟨number, ?_⟩
  rw [finishRun_getElem?, if_neg, hnumber]
  intro hsame
  rw [hsame, hnumber] at hentry
  cases hentry
  rw [hopen] at hsuccess
  cases hsuccess

theorem finished_mem {run : Nat} {entry : WatchRun Path} (hentry : queue.runs[run]? = some entry)
    (success : Bool) :
    { entry with outcome := some success } ∈ (queue.finishRun run success).runs := by
  apply List.mem_iff_getElem?.mpr
  refine ⟨run, ?_⟩
  rw [finishRun_getElem?, if_pos rfl, hentry, Option.map_some]

/-- What a run that has ended was before. -/
theorem of_mem_finishRun {run : Nat} {success : Bool} {other : WatchRun Path}
    (hother : other ∈ (queue.finishRun run success).runs) :
    other ∈ queue.runs ∨ ∃ entry, queue.runs[run]? = some entry ∧
      other = { entry with outcome := some success } := by
  obtain ⟨number, hnumber⟩ := List.mem_iff_getElem?.mp hother
  rw [finishRun_getElem?] at hnumber
  split at hnumber
  · rename_i hsame
    subst hsame
    obtain ⟨entry, hentry, rfl⟩ := Option.map_eq_some_iff.mp hnumber
    exact .inr ⟨entry, hentry, rfl⟩
  · exact .inl (List.mem_of_getElem? hnumber)

end

/-- A run that has succeeded stays so. -/
theorem RunsOk.succeeded (h : queue.RunsOk) (hstep : WatchStep queue next)
    {run : WatchRun Path} (hrun : run ∈ queue.runs) (hsuccess : run.outcome = some true) :
    run ∈ next.runs := by
  cases hstep with
  | startScan hregistered => exact List.mem_append_left _ hrun
  | startRun claim hworker => exact List.mem_append_left _ hrun
  | finishScan index number success hscan =>
    obtain ⟨entry, hentry, -, -, hopen⟩ := h.scans index number hscan
    exact mem_finishRun hentry hopen success hrun hsuccess
  | succeed claim number hworker =>
    obtain ⟨entry, hentry, -, hopen, -⟩ := h.running claim number hworker
    exact mem_finishRun hentry hopen true hrun hsuccess
  | fail claim number error hworker =>
    obtain ⟨entry, hentry, -, hopen, -⟩ := h.running claim number hworker
    exact mem_finishRun hentry hopen false hrun hsuccess
  | call call => exact hrun
  | notifyOne hnotifying => exact hrun
  | completeScan index stage hscan => exact hrun
  | wake hworker hnotify => exact hrun
  | move worker hmove => exact hrun
  | enter hworker => exact hrun
  | take hworker hwork => exact hrun
  | countClaim claim hworker => exact hrun
  | workerCall call worker hcalls => exact hrun
  | workerNotify worker hnotifies => exact hrun
  | complete worker stage hworker hcompletes => exact hrun
  | release claim error hworker => exact hrun
  | sendFailed claim error hworker => exact hrun
  | exit hworker => exact hrun
  | unregister => exact hrun
  | stop hregistered => exact hrun

theorem ScanDone.step (hdone : queue.ScanDone) (h : queue.RunsOk) (hstep : WatchStep queue next) :
    next.ScanDone := by
  obtain ⟨run, hrun, hfull, hsuccess⟩ := hdone
  exact ⟨run, h.succeeded hstep hrun hsuccess, hfull, hsuccess⟩

end WatchQueue

end Ivygrep.Native
