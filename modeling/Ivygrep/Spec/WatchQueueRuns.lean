import Ivygrep.Spec.WatchQueueInv

/-!
# Runs and the initial scan

The runs that go on are kept apart, and the initial scan is given up only when a full run
has succeeded since the watcher was registered.
-/

namespace Ivygrep.Native

variable {Path : Type} [DecidableEq Path]

namespace WatchQueue

variable {queue next : WatchQueue Path}

/-! ## The initial scan -/

/-- What `complete_initial_watch_reconciliation` rests on in each of its steps. -/
def CompletionOk (queue : WatchQueue Path) (stage : CompletionStage) : Prop :=
  match stage with
  | .checking => queue.control.active = false ∨ queue.ScanDone
  | .storing => queue.ScanDone
  | _ => True

def WorkerScanOk (queue : WatchQueue Path) (worker : WatchWorker Path) : Prop :=
  match worker with
  | .succeeded | .reporting => queue.CompletionOk .checking
  | .completing stage | .publishing stage => queue.CompletionOk stage
  | _ => True

/-- No initial scan is required only if one has been made. -/
structure ScanOk (queue : WatchQueue Path) : Prop where
  done : queue.control.initialScanRequired = false → queue.ScanDone
  worker : queue.WorkerScanOk queue.worker
  scans : ∀ (index : Nat) (stage : CompletionStage),
    queue.scans[index]? = some (.completing stage) → queue.CompletionOk stage

omit [DecidableEq Path] in
@[simp] theorem goTo_worker (worker : WatchWorker Path) : (queue.goTo worker).worker = worker := rfl

omit [DecidableEq Path] in
theorem CompletionOk.mono {stage : CompletionStage} (h : queue.CompletionOk stage)
    (hactive : queue.control.active = false → next.control.active = false)
    (hdone : queue.ScanDone → next.ScanDone) : next.CompletionOk stage := by
  cases stage with
  | checking => exact h.imp hactive hdone
  | storing => exact hdone h
  | looking | publishing | done => trivial

/-- A step of the completion, for any state with its flags and its runs. -/
theorem CompletionOk.complete {stage : CompletionStage} (h : queue.CompletionOk stage)
    (hcontrol : next.control = (queue.control.complete stage).1)
    (hdone : queue.ScanDone → next.ScanDone) :
    next.CompletionOk (queue.control.complete stage).2 := by
  unfold WatchControl.complete
  cases stage with
  | checking =>
    simp only
    split
    · trivial
    · rename_i hguard
      simp at hguard
      cases h with
      | inl hstopped =>
        rw [hguard.1] at hstopped
        cases hstopped
      | inr hscan => exact hdone hscan
  | storing => trivial
  | looking =>
    simp only
    split
    · trivial
    · trivial
  | publishing | done => trivial

theorem ScanOk.done_complete (h : queue.ScanOk) {stage : CompletionStage}
    (hstage : queue.CompletionOk stage)
    (hscan : (queue.control.complete stage).1.initialScanRequired = false) : queue.ScanDone := by
  cases queue.control.complete_initialScanRequired stage with
  | inl hsame => exact h.done (hsame.symm.trans hscan)
  | inr hstoring =>
    subst hstoring
    exact hstage

omit [DecidableEq Path] in
theorem WorkerScanOk.mono {worker : WatchWorker Path} (h : queue.WorkerScanOk worker)
    (hactive : queue.control.active = false → next.control.active = false)
    (hdone : queue.ScanDone → next.ScanDone) : next.WorkerScanOk worker := by
  unfold WorkerScanOk at h ⊢
  cases worker with
  | succeeded | reporting => exact CompletionOk.mono h hactive hdone
  | completing stage | publishing stage => exact CompletionOk.mono h hactive hdone
  | _ => trivial

omit [DecidableEq Path] in
theorem ScanOk.move (h : queue.ScanOk) {worker : WatchWorker Path}
    (hmove : WatchMove queue queue.worker worker) : queue.WorkerScanOk worker := by
  have hworker := h.worker
  generalize queue.worker = before at hmove hworker
  cases hmove with
  | settle | rouse | loop | claimScan | leave => split <;> trivial
  | takeNone hnone => trivial
  | refuse claim error => trivial
  | skip claim hskip =>
    cases hskip with
    | inl hstopped => exact .inl hstopped
    | inr hstartup => exact .inr (h.done hstartup.2)
  | decide claim hactive hwork => trivial
  | report => exact hworker
  | completed | loopAgain | published => trivial

omit [DecidableEq Path] in
/-- A step that leaves the initial scan as it is. -/
theorem ScanOk.keep (h : queue.ScanOk)
    (hactive : queue.control.active = false → next.control.active = false)
    (hdone : queue.ScanDone → next.ScanDone)
    (hscan : next.control.initialScanRequired = queue.control.initialScanRequired)
    (hworker : next.WorkerScanOk next.worker)
    (hscans : ∀ (index : Nat) (stage : CompletionStage),
      next.scans[index]? = some (.completing stage) →
        queue.scans[index]? = some (.completing stage) ∨ next.CompletionOk stage) :
    next.ScanOk := by
  refine ⟨?_, hworker, ?_⟩
  · intro hrequired
    exact hdone (h.done (hscan.symm.trans hrequired))
  · intro index stage hstage
    cases hscans index stage hstage with
    | inl hold => exact (h.scans index stage hold).mono hactive hdone
    | inr hnew => exact hnew

/-! ## Steps -/

omit [DecidableEq Path] in
/-- A member of the scans after one of them has gone on. -/
theorem scans_set {scans : List IndexScan} {index other : Nat} {scan found : IndexScan}
    (h : (scans.set index scan)[other]? = some found) :
    (other ≠ index ∧ scans[other]? = some found) ∨ found = scan := by
  by_cases hsame : other = index
  · subst hsame
    rw [List.getElem?_set_self'] at h
    cases hold : scans[other]? with
    | none =>
      rw [hold] at h
      cases h
    | some old =>
      rw [hold] at h
      cases h
      exact .inr rfl
  · rw [List.getElem?_set_ne (Ne.symm hsame)] at h
    exact .inl ⟨hsame, h⟩

theorem ScanOk.step (h : queue.ScanOk) (hruns : queue.RunsOk) (hstep : WatchStep queue next) :
    next.ScanOk := by
  have hdone : queue.ScanDone → next.ScanDone := fun hdone => hdone.step hruns hstep
  cases hstep with
  | call call =>
    obtain ⟨hactive, -, -, hscan, -⟩ := queue.control.mark_frame call
    have hstopped : queue.control.active = false → (queue.control.mark call).active = false :=
      fun hstopped => hactive.trans hstopped
    exact h.keep hstopped hdone hscan (h.worker.mono hstopped hdone) fun _ _ => .inl
  | workerCall call worker hcalls =>
    obtain ⟨hactive, -, -, hscan, -⟩ := queue.control.mark_frame call
    have hstopped : queue.control.active = false → (queue.control.mark call).active = false :=
      fun hstopped => hactive.trans hstopped
    refine h.keep hstopped hdone hscan ?_ fun _ _ => .inl
    have hworker := h.worker
    show WorkerScanOk _ worker
    generalize queue.worker = before at hcalls hworker
    cases hcalls with
    | markExternal =>
      have hchecking : queue.CompletionOk .checking := hworker
      exact hchecking.mono hstopped hdone
    | requeue claim error => trivial
  | notifyOne hnotifying => exact h.keep id hdone rfl (h.worker.mono id hdone) fun _ _ => .inl
  | startScan hregistered =>
    refine h.keep id hdone rfl (h.worker.mono id hdone) ?_
    intro index stage hstage
    cases ForStd.getElem?_concat_eq_some hstage with
    | inl hold => exact .inl hold
    | inr hnew => cases hnew.2
  | finishScan index run success hscan =>
    refine h.keep id hdone rfl (h.worker.mono id hdone) ?_
    intro other stage hstage
    cases scans_set hstage with
    | inl hold => exact .inl hold.2
    | inr hnew =>
      cases hnew
      obtain ⟨entry, hentry, -, hfull, -⟩ := hruns.scans index run hscan
      cases success with
      | false => exact .inr trivial
      | true => exact .inr (.inr ⟨_, finished_mem hentry true, hfull, rfl⟩)
  | completeScan index stage hscan =>
    have hstage := h.scans index stage hscan
    have hstopped : queue.control.active = false →
        (queue.control.complete stage).1.active = false :=
      fun hstopped => (queue.control.complete_frame stage).1.trans hstopped
    refine ⟨fun hrequired => hdone (h.done_complete hstage hrequired),
      h.worker.mono hstopped hdone, ?_⟩
    intro other found hfound
    cases scans_set hfound with
    | inl hold => exact (h.scans other found hold.2).mono hstopped hdone
    | inr hnew =>
      cases hnew
      exact hstage.complete rfl hdone
  | wake hworker hnotify => exact h.keep id hdone rfl trivial fun _ _ => .inl
  | move worker hmove =>
    exact h.keep id hdone rfl ((h.move hmove).mono id hdone) fun _ _ => .inl
  | enter hworker =>
    refine h.keep id hdone rfl ?_ fun _ _ => .inl
    show WorkerScanOk _ (if _ then _ else _)
    split <;> trivial
  | take hworker hwork => exact h.keep id hdone rfl trivial fun _ _ => .inl
  | countClaim claim hworker => exact h.keep id hdone rfl trivial fun _ _ => .inl
  | startRun claim hworker => exact h.keep id hdone rfl trivial fun _ _ => .inl
  | succeed claim run hworker =>
    refine h.keep id hdone rfl ?_ fun _ _ => .inl
    obtain ⟨entry, hentry, -, -, -, -, hfull⟩ := hruns.running claim run hworker
    refine .inr ?_
    cases hfull with
    | inl hfull => exact ⟨_, finished_mem hentry true, hfull, rfl⟩
    | inr hscan => exact hdone hscan
  | fail claim run error hworker => exact h.keep id hdone rfl trivial fun _ _ => .inl
  | workerNotify worker hnotifies =>
    refine h.keep id hdone rfl ?_ fun _ _ => .inl
    have hworker := h.worker
    show WorkerScanOk _ worker
    generalize queue.worker = before at hnotifies hworker
    cases hnotifies with
    | external =>
      have hchecking : queue.CompletionOk .checking := hworker
      exact hchecking.mono id hdone
    | requeued => trivial
  | complete worker stage hworker hcompletes =>
    have hstage : queue.CompletionOk stage := by
      have hok := h.worker
      rw [hworker] at hok
      cases hcompletes with
      | completing => exact hok
      | publishing => exact hok
    have hstopped : queue.control.active = false →
        (queue.control.complete stage).1.active = false :=
      fun hstopped => (queue.control.complete_frame stage).1.trans hstopped
    refine ⟨fun hrequired => hdone (h.done_complete hstage hrequired), ?_,
      fun index found hfound => (h.scans index found hfound).mono hstopped hdone⟩
    show WorkerScanOk _ (worker _)
    cases hcompletes with
    | completing => exact hstage.complete rfl hdone
    | publishing => exact hstage.complete rfl hdone
  | release claim error hworker =>
    refine h.keep ?_ hdone ?_ trivial fun _ _ => .inl
    · intro hstopped
      show (if _ then _ else _ : WatchControl Path).active = false
      split
      · rfl
      · exact hstopped
    · show (if _ then _ else _ : WatchControl Path).initialScanRequired = _
      split
      · rfl
      · rfl
  | sendFailed claim error hworker =>
    obtain ⟨hactive, -, -, -, hscan, -⟩ := queue.control.failed_frame error
    exact h.keep (fun hstopped => hactive.trans hstopped) hdone hscan trivial fun _ _ => .inl
  | exit hworker => exact h.keep id hdone rfl trivial fun _ _ => .inl
  | unregister => exact h.keep id hdone rfl (h.worker.mono id hdone) fun _ _ => .inl
  | stop hregistered =>
    refine h.keep (fun _ => rfl) hdone rfl ?_ fun _ _ => .inl
    show WorkerScanOk _ (if _ then _ else _)
    split
    · trivial
    · exact h.worker.mono (fun _ => rfl) hdone

/-! ## Runs -/

section

omit [DecidableEq Path]

/-- A step that starts and ends no run. -/
theorem RunsOk.keep (h : queue.RunsOk) (hruns : next.runs = queue.runs)
    (hmarks : queue.marks.length ≤ next.marks.length)
    (hscans : ∀ index run : Nat, next.scans[index]? = some (.scanning run) →
      queue.scans[index]? = some (.scanning run))
    (hclaim : ∀ claim, next.worker.claim = some claim →
      queue.worker.claim = some claim ∨ claim.marksBefore = queue.marks.length)
    (hrunning : ∀ claim run, next.worker = .running claim run →
      queue.worker = .running claim run) : next.RunsOk := by
  have hdone : queue.ScanDone → next.ScanDone := by
    intro hdone
    unfold ScanDone
    rw [hruns]
    exact hdone
  refine ⟨?_, ?_, ?_, ?_, ?_⟩
  · intro run hrun
    rw [hruns] at hrun
    exact (h.counted run hrun).trans hmarks
  · intro claim hnew
    cases hclaim claim hnew with
    | inl hold => exact (h.claimed claim hold).trans hmarks
    | inr hlength =>
      rw [hlength]
      exact hmarks
  · intro index run hscan
    rw [hruns]
    exact h.scans index run (hscans index run hscan)
  · intro left right run hleft hright
    exact h.distinct left right run (hscans left run hleft) (hscans right run hright)
  · intro claim run hworker
    obtain ⟨entry, hentry, hexplicit, hopen, hmarksBefore, hcovers, hfull⟩ :=
      h.running claim run (hrunning claim run hworker)
    rw [hruns]
    exact ⟨entry, hentry, hexplicit, hopen, hmarksBefore, hcovers, hfull.imp_right hdone⟩

/-- The worker goes to a stage in which no run goes on. -/
theorem RunsOk.goTo (h : queue.RunsOk) {worker : WatchWorker Path}
    (hworker : next.worker = worker) (hruns : next.runs = queue.runs)
    (hmarks : queue.marks.length ≤ next.marks.length) (hscans : next.scans = queue.scans)
    (hclaim : ∀ claim, worker.claim = some claim →
      queue.worker.claim = some claim ∨ claim.marksBefore = queue.marks.length)
    (hrunning : ∀ claim run, worker ≠ .running claim run) : next.RunsOk := by
  refine h.keep hruns hmarks ?_ ?_ ?_
  · intro index run hscan
    rw [← hscans]
    exact hscan
  · rw [hworker]
    exact hclaim
  · intro claim run hrun
    rw [hworker] at hrun
    exact absurd hrun (hrunning claim run)

/-- A run starts: it is the last one, and has not ended. -/
theorem RunsOk.startRun (h : queue.RunsOk) (change : WatchChange Path) (explicit : Bool) :
    (∀ run ∈ (queue.startRun change explicit).runs, run.marksBefore ≤ queue.marks.length) ∧
      (∀ (run : Nat) (entry : WatchRun Path), queue.runs[run]? = some entry →
        (queue.startRun change explicit).runs[run]? = some entry) ∧
      (queue.startRun change explicit).runs[queue.runs.length]? =
        some ⟨change, explicit, queue.marks.length, none⟩ := by
  refine ⟨?_, ?_, ?_⟩
  · intro run hrun
    cases List.mem_append.mp hrun with
    | inl hold => exact h.counted run hold
    | inr hnew => rw [List.mem_singleton.mp hnew]
  · intro run entry hentry
    show (queue.runs ++ [_])[run]? = some entry
    rw [List.getElem?_append_left (List.getElem?_eq_some_iff.mp hentry).1, hentry]
  · show (queue.runs ++ [_])[queue.runs.length]? = _
    rw [List.getElem?_concat_length]

theorem RunsOk.startScan (h : queue.RunsOk) :
    ({ queue.startRun .fullReconciliation true with
      scans := queue.scans ++ [.scanning queue.runs.length] } : WatchQueue Path).RunsOk := by
  obtain ⟨hcounted, hold, hnew⟩ := h.startRun .fullReconciliation true
  have hlt : ∀ index run : Nat, queue.scans[index]? = some (.scanning run) →
      run < queue.runs.length := by
    intro index run hscan
    obtain ⟨entry, hentry, -⟩ := h.scans index run hscan
    exact (List.getElem?_eq_some_iff.mp hentry).1
  refine ⟨hcounted, h.claimed, ?_, ?_, ?_⟩
  · intro index run hscan
    cases ForStd.getElem?_concat_eq_some hscan with
    | inl hbefore =>
      obtain ⟨entry, hentry, hrest⟩ := h.scans index run hbefore
      exact ⟨entry, hold run entry hentry, hrest⟩
    | inr hlast =>
      cases hlast.2
      exact ⟨_, hnew, rfl, rfl, rfl⟩
  · intro left right run hleft hright
    cases ForStd.getElem?_concat_eq_some hleft with
    | inl hleft =>
      cases ForStd.getElem?_concat_eq_some hright with
      | inl hright => exact h.distinct left right run hleft hright
      | inr hlast =>
        cases hlast.2
        exact absurd (hlt left _ hleft) (Nat.lt_irrefl _)
    | inr hlast =>
      cases hlast.2
      cases ForStd.getElem?_concat_eq_some hright with
      | inl hright => exact absurd (hlt right _ hright) (Nat.lt_irrefl _)
      | inr hlast' => exact hlast.1.trans hlast'.1.symm
  · intro claim run hworker
    obtain ⟨entry, hentry, hexplicit, hopen, hmarks, hcovers, hfull⟩ := h.running claim run hworker
    refine ⟨entry, hold run entry hentry, hexplicit, hopen, hmarks, hcovers, hfull.imp_right ?_⟩
    intro hdone
    obtain ⟨done, hdone, hrest⟩ := hdone
    exact ⟨done, List.mem_append_left _ hdone, hrest⟩

/-- The worker's run covers what the worker has claimed. -/
theorem runChange_covers (claim : WatchClaim Path) {item : WatchItem Path}
    (h : claim.work.change.Covers item) : (queue.runChange claim).Covers item := by
  unfold runChange
  split
  · trivial
  · cases hchange : claim.work.change with
    | none => trivial
    | paths changed =>
      rw [hchange] at h
      exact h
    | fullReconciliation => trivial

theorem RunsOk.startClaim (h : queue.RunsOk) (hscan : queue.ScanOk) {claim : WatchClaim Path}
    (hworker : queue.worker = .deciding claim) :
    ((queue.startRun (queue.runChange claim) false).goTo
      (.running claim queue.runs.length)).RunsOk := by
  obtain ⟨hcounted, hold, hnew⟩ := h.startRun (queue.runChange claim) false
  have hclaimed := h.claimed claim (by rw [hworker]; rfl)
  refine ⟨hcounted, ?_, ?_, h.distinct, ?_⟩
  · intro other hother
    cases hother
    exact hclaimed
  · intro index run hscanning
    obtain ⟨entry, hentry, hrest⟩ := h.scans index run hscanning
    exact ⟨entry, hold run entry hentry, hrest⟩
  · intro other run hrunning
    cases hrunning
    refine ⟨_, hnew, rfl, rfl, hclaimed, fun item hitem => runChange_covers claim hitem, ?_⟩
    show queue.runChange claim = .fullReconciliation ∨ _
    unfold runChange
    split
    · exact .inl rfl
    · rename_i hrequired
      obtain ⟨done, hdone, hrest⟩ := hscan.done (Bool.eq_false_iff.mpr hrequired)
      exact .inr ⟨done, List.mem_append_left _ hdone, hrest⟩

/-- A run ends: those that go on are others. -/
theorem RunsOk.finishRun (h : queue.RunsOk) {run : Nat} {entry : WatchRun Path}
    (hentry : queue.runs[run]? = some entry) (hopen : entry.outcome = none) (success : Bool)
    (hruns : next.runs = (queue.finishRun run success).runs) (hmarks : next.marks = queue.marks)
    (hclaim : ∀ claim, next.worker.claim = some claim → queue.worker.claim = some claim)
    (hscans : ∀ index number : Nat, next.scans[index]? = some (.scanning number) →
      queue.scans[index]? = some (.scanning number) ∧ number ≠ run)
    (hrunning : ∀ claim number, next.worker = .running claim number →
      queue.worker = .running claim number ∧ number ≠ run) : next.RunsOk := by
  have hother : ∀ number : Nat, number ≠ run → next.runs[number]? = queue.runs[number]? := by
    intro number hne
    rw [hruns, finishRun_getElem?, if_neg (Ne.symm hne)]
  have hdone : queue.ScanDone → next.ScanDone := by
    intro hdone
    obtain ⟨done, hmem, hfull, hsuccess⟩ := hdone
    exact ⟨done, hruns ▸ mem_finishRun hentry hopen success hmem hsuccess, hfull, hsuccess⟩
  refine ⟨?_, ?_, ?_, ?_, ?_⟩
  · intro other hmem
    rw [hruns] at hmem
    rw [hmarks]
    cases of_mem_finishRun hmem with
    | inl hold => exact h.counted other hold
    | inr hended =>
      obtain ⟨before, hbefore, rfl⟩ := hended
      exact h.counted before (List.mem_of_getElem? hbefore)
  · intro claim hnew
    rw [hmarks]
    exact h.claimed claim (hclaim claim hnew)
  · intro index number hscan
    obtain ⟨hold, hne⟩ := hscans index number hscan
    rw [hother number hne]
    exact h.scans index number hold
  · intro left right number hleft hright
    exact h.distinct left right number (hscans left number hleft).1 (hscans right number hright).1
  · intro claim number hworker
    obtain ⟨hold, hne⟩ := hrunning claim number hworker
    obtain ⟨found, hfound, hexplicit, hgoes, hmarksBefore, hcovers, hfull⟩ :=
      h.running claim number hold
    rw [hother number hne]
    exact ⟨found, hfound, hexplicit, hgoes, hmarksBefore, hcovers, hfull.imp_right hdone⟩

/-- A run of the worker is none of the explicit runs. -/
theorem RunsOk.apart (h : queue.RunsOk) {claim : WatchClaim Path} {run index number : Nat}
    (hworker : queue.worker = .running claim run)
    (hscan : queue.scans[index]? = some (.scanning number)) : number ≠ run := by
  intro hsame
  subst hsame
  obtain ⟨entry, hentry, hworkers, -⟩ := h.running claim number hworker
  obtain ⟨found, hfound, hexplicit, -⟩ := h.scans index number hscan
  rw [hentry] at hfound
  cases hfound
  rw [hworkers] at hexplicit
  cases hexplicit

end

theorem RunsOk.step (h : queue.RunsOk) (hscan : queue.ScanOk) (hstep : WatchStep queue next) :
    next.RunsOk := by
  cases hstep with
  | call call =>
    refine h.keep rfl ?_ (fun _ _ => id) (fun _ => .inl) fun _ _ => id
    show queue.marks.length ≤ (queue.marks ++ [_]).length
    rw [List.length_append]
    exact Nat.le_add_right _ _
  | workerCall call worker hcalls =>
    refine h.goTo rfl rfl ?_ rfl ?_ ?_
    · show queue.marks.length ≤ (queue.marks ++ [_]).length
      rw [List.length_append]
      exact Nat.le_add_right _ _
    · intro claim hclaim
      generalize queue.worker = before at hcalls
      cases hcalls with
      | markExternal => cases hclaim
      | requeue claim error => cases hclaim
    · intro claim run
      generalize queue.worker = before at hcalls
      cases hcalls with
      | markExternal => simp
      | requeue claim error => simp
  | notifyOne hnotifying =>
    exact h.keep rfl (Nat.le_refl _) (fun _ _ => id) (fun _ => .inl) fun _ _ => id
  | startScan hregistered => exact h.startScan
  | finishScan index run success hfound =>
    obtain ⟨entry, hentry, -, -, hopen⟩ := h.scans index run hfound
    refine h.finishRun hentry hopen success rfl rfl (fun _ => id) ?_ ?_
    · intro other number hother
      cases scans_set hother with
      | inl hold =>
        refine ⟨hold.2, ?_⟩
        intro hsame
        subst hsame
        exact hold.1 (h.distinct other index number hold.2 hfound)
      | inr hnew => cases hnew
    · intro claim number hworker
      exact ⟨hworker, fun hsame => h.apart hworker hfound hsame.symm⟩
  | completeScan index stage hfound =>
    refine h.keep rfl (Nat.le_refl _) ?_ (fun _ => .inl) fun _ _ => id
    intro other run hother
    cases scans_set hother with
    | inl hold => exact hold.2
    | inr hnew => cases hnew
  | wake hworker hnotify =>
    exact h.goTo rfl rfl (Nat.le_refl _) rfl (fun _ hclaim => by cases hclaim) (by simp)
  | move worker hmove =>
    exact h.goTo rfl rfl (Nat.le_refl _) rfl (fun _ => hmove.marksBefore_le) hmove.not_running
  | enter hworker =>
    refine h.goTo rfl rfl (Nat.le_refl _) rfl ?_ ?_
    · intro claim hclaim
      split at hclaim <;> cases hclaim
    · intro claim run
      split <;> simp
  | take hworker hwork =>
    refine h.goTo rfl rfl (Nat.le_refl _) rfl ?_ (by simp)
    intro claim hclaim
    cases hclaim
    exact .inr rfl
  | countClaim claim hworker =>
    refine h.goTo rfl rfl (Nat.le_refl _) rfl ?_ (by simp)
    intro other hother
    rw [hworker]
    exact .inl hother
  | startRun claim hworker => exact h.startClaim hscan hworker
  | succeed claim run hworker =>
    obtain ⟨entry, hentry, -, hopen, -⟩ := h.running claim run hworker
    refine h.finishRun hentry hopen true rfl rfl ?_ ?_ ?_
    · intro other hother
      cases hother
    · intro index number hfound
      exact ⟨hfound, h.apart hworker hfound⟩
    · intro other number hother
      cases hother
  | fail claim run error hworker =>
    obtain ⟨entry, hentry, -, hopen, -⟩ := h.running claim run hworker
    refine h.finishRun hentry hopen false rfl rfl ?_ ?_ ?_
    · intro other hother
      rw [hworker]
      exact hother
    · intro index number hfound
      exact ⟨hfound, h.apart hworker hfound⟩
    · intro other number hother
      cases hother
  | workerNotify worker hnotifies =>
    refine h.goTo rfl rfl (Nat.le_refl _) rfl ?_ ?_
    · intro claim hclaim
      generalize queue.worker = before at hnotifies
      cases hnotifies with
      | external => cases hclaim
      | requeued => cases hclaim
    · intro claim run
      generalize queue.worker = before at hnotifies
      cases hnotifies with
      | external => simp
      | requeued => simp
  | complete worker stage hworker hcompletes =>
    refine h.goTo rfl rfl (Nat.le_refl _) rfl ?_ ?_
    · intro claim hclaim
      cases hcompletes with
      | completing => cases hclaim
      | publishing => cases hclaim
    · intro claim run
      cases hcompletes with
      | completing => simp
      | publishing => simp
  | release claim error hworker =>
    exact h.goTo rfl rfl (Nat.le_refl _) rfl (fun _ hclaim => by cases hclaim) (by simp)
  | sendFailed claim error hworker =>
    refine h.goTo rfl rfl (Nat.le_refl _) rfl ?_ (by simp)
    intro other hother
    rw [hworker]
    exact .inl hother
  | exit hworker =>
    exact h.goTo rfl rfl (Nat.le_refl _) rfl (fun _ hclaim => by cases hclaim) (by simp)
  | unregister => exact h.keep rfl (Nat.le_refl _) (fun _ _ => id) (fun _ => .inl) fun _ _ => id
  | stop hregistered =>
    refine h.keep rfl (Nat.le_refl _) (fun _ _ => id) ?_ ?_
    · intro claim hclaim
      have hclaim' : (if queue.worker = .parked then WatchWorker.awake else queue.worker).claim =
        some claim := hclaim
      split at hclaim'
      · cases hclaim'
      · exact .inl hclaim'
    · intro claim run hworker
      have hworker' : (if queue.worker = .parked then WatchWorker.awake else queue.worker) =
        .running claim run := hworker
      split at hworker'
      · cases hworker'
      · exact hworker'

end WatchQueue

end Ivygrep.Native
