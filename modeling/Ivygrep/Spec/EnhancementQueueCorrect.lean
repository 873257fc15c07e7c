import Ivygrep.Spec.EnhancementQueueInv

/-!
# Runs of the enhancement queue

The limits of the queue hold in every state of a run, and a request that waits was made for the
policy that it has. A request leaves with its work done or started, unless a start fails.
-/

namespace Ivygrep.Native

variable {Workspace : Type} [DecidableEq Workspace]

/-! ## Events other than a dispatch -/

section Map

variable {pending : List (PendingRequest Workspace)} {request other : PendingRequest Workspace}

/-- A write to a waiting request keeps the number of requests. -/
theorem length_insertPending_eq (h : DistinctPending pending) (hmem : other ∈ pending)
    (hworkspace : request.workspace = other.workspace) :
    (insertPending pending request).length = pending.length := by
  have hperm : ((insertPending pending request).map PendingRequest.workspace).Perm
      (pending.map PendingRequest.workspace) := by
    refine (List.perm_ext_iff_of_nodup (distinct_insertPending h request) h).mpr fun workspace => ?_
    constructor
    · intro hin
      obtain ⟨found, hfound, rfl⟩ := List.mem_map.mp hin
      rcases mem_insertPending.mp hfound with rfl | ⟨hfound, -⟩
      · rw [hworkspace]
        exact List.mem_map_of_mem hmem
      · exact List.mem_map_of_mem hfound
    · intro hin
      obtain ⟨found, hfound, rfl⟩ := List.mem_map.mp hin
      by_cases hsame : found.workspace = request.workspace
      · exact List.mem_map.mpr ⟨request, mem_insertPending.mpr (.inl rfl), hsame.symm⟩
      · exact List.mem_map_of_mem (mem_insertPending.mpr (.inr ⟨hfound, hsame⟩))
  simpa using hperm.length_eq

end Map

namespace EnhancementQueue

variable {queue : EnhancementQueue Workspace} {host : WorkerHost Workspace}

/-- A touch changes the recency of waiting requests alone. -/
structure Touched (before after : EnhancementQueue Workspace) : Prop where
  distinct : DistinctPending after.pending
  length_eq : after.pending.length = before.pending.length
  same : ∀ workspace policy,
    (∃ request ∈ after.pending, request.workspace = workspace ∧ request.policy = policy) ↔
      ∃ request ∈ before.pending, request.workspace = workspace ∧ request.policy = policy
  started_eq : after.started = before.started
  pendingLen_eq : after.pendingLen = before.pendingLen

theorem touched_touchOne (h : DistinctPending queue.pending) (workspace : Workspace) :
    Touched queue (queue.touchOne workspace) := by
  unfold touchOne
  dsimp only
  split
  · rename_i request hfind
    obtain ⟨hmem, -⟩ := mem_of_findPending hfind
    have hsame : ∀ other ∈ queue.pending, other.workspace = request.workspace → other = request :=
      fun other hother hworkspace => List.inj_on_of_nodup_map h hother hmem hworkspace
    refine ⟨distinct_insertPending h _, length_insertPending_eq h hmem rfl, ?_, rfl, rfl⟩
    intro workspace policy
    constructor
    · rintro ⟨other, hother, rfl, rfl⟩
      rcases mem_insertPending.mp hother with rfl | ⟨hother, -⟩
      · exact ⟨request, hmem, rfl, rfl⟩
      · exact ⟨other, hother, rfl, rfl⟩
    · rintro ⟨other, hother, rfl, rfl⟩
      by_cases hworkspace : other.workspace = request.workspace
      · obtain rfl := hsame other hother hworkspace
        exact ⟨_, mem_insertPending.mpr (.inl rfl), rfl, rfl⟩
      · exact ⟨other, mem_insertPending.mpr (.inr ⟨hother, hworkspace⟩), rfl, rfl⟩
  · exact ⟨h, rfl, fun _ _ => Iff.rfl, rfl, rfl⟩

theorem touched_touch (h : DistinctPending queue.pending) (workspaces : List Workspace) :
    Touched queue (queue.touch workspaces) := by
  unfold touch
  split
  · exact ⟨h, rfl, fun _ _ => Iff.rfl, rfl, rfl⟩
  · clear * - h
    induction workspaces generalizing queue with
    | nil => exact ⟨h, rfl, fun _ _ => Iff.rfl, rfl, rfl⟩
    | cons workspace workspaces ih =>
      have hone := touched_touchOne h workspace
      have hrest := ih hone.distinct
      exact ⟨hrest.distinct, hrest.length_eq.trans hone.length_eq,
        fun workspace policy => (hrest.same workspace policy).trans (hone.same workspace policy),
        hrest.started_eq.trans hone.started_eq, hrest.pendingLen_eq.trans hone.pendingLen_eq⟩

theorem evictOldest_sublist (pending : List (PendingRequest Workspace)) :
    (evictOldest pending).Sublist pending := by
  unfold evictOldest
  split
  · split
    · exact List.filter_sublist
    · exact .refl _
  · exact .refl _

/-- One request too many is evicted. -/
theorem length_evictOldest_le {pending : List (PendingRequest Workspace)}
    (h : pending.length ≤ maxPending + 1) : (evictOldest pending).length ≤ maxPending := by
  unfold evictOldest
  split
  · rename_i hmany
    split
    · rename_i oldest holdest
      have hlt := length_removePending_lt (List.argmin_mem holdest)
      omega
    · rename_i hnone
      rw [List.argmin_eq_none] at hnone
      simp [hnone] at hmany
  · omega

omit [DecidableEq Workspace] in
/-- The merged policy is the higher of the two. -/
theorem mergePolicy_spec (waiting : Option (PendingRequest Workspace))
    (policy : EnhancementPolicy) (lane : WorkerLane) :
    policy.rank ≤ (mergePolicy waiting policy lane).1.rank ∧
      (∀ found, waiting = some found →
        found.policy.rank ≤ (mergePolicy waiting policy lane).1.rank) ∧
      ((mergePolicy waiting policy lane).1 = policy ∨
        ∃ found, waiting = some found ∧ found.policy = (mergePolicy waiting policy lane).1) := by
  cases waiting with
  | none => exact ⟨Nat.le_refl _, by simp, .inl rfl⟩
  | some found =>
    unfold mergePolicy
    dsimp only
    split
    · rename_i hlt
      refine ⟨hlt.le, ?_, .inr ⟨found, rfl, rfl⟩⟩
      rintro _ ⟨⟩
      exact Nat.le_refl _
    · rename_i hle
      refine ⟨Nat.le_refl _, ?_, .inl rfl⟩
      rintro _ ⟨⟩
      exact Nat.le_of_not_lt hle

/-- Without a lane nothing changes; with one the request waits, and merges with another. -/
theorem request_cases (queue : EnhancementQueue Workspace) (host : WorkerHost Workspace)
    (workspace : Workspace) (policy : EnhancementPolicy) :
    (policy.lane host workspace = none ∧ queue.request host workspace policy = queue) ∨
    ∃ added : PendingRequest Workspace, policy.lane host workspace ≠ none ∧
      added.workspace = workspace ∧ policy.rank ≤ added.policy.rank ∧
      (added.policy = policy ∨ ∃ waiting ∈ queue.pending,
        waiting.workspace = workspace ∧ waiting.policy = added.policy) ∧
      (∀ waiting, findPending queue.pending workspace = some waiting →
        waiting.policy.rank ≤ added.policy.rank) ∧
      (queue.request host workspace policy).pending =
        evictOldest (insertPending queue.pending added) ∧
      (queue.request host workspace policy).started = queue.started ∧
      (queue.request host workspace policy).pendingLen =
        (queue.request host workspace policy).pending.length := by
  cases hlane : policy.lane host workspace with
  | none =>
    left
    refine ⟨rfl, ?_⟩
    unfold request
    rw [hlane]
  | some lane =>
    right
    have hrequest : ∃ recency, queue.request host workspace policy =
        let merged := mergePolicy (findPending queue.pending workspace) policy lane
        let pending := evictOldest (insertPending queue.pending
          { workspace, policy := merged.1, lane := merged.2, recency, hashFirst := true })
        { queue with pending, recency, pendingLen := pending.length } := by
      refine ⟨queue.recency + 1, ?_⟩
      unfold request
      rw [hlane]
    obtain ⟨recency, hrequest⟩ := hrequest
    obtain ⟨hpolicy, hwaiting, hmerged⟩ :=
      mergePolicy_spec (findPending queue.pending workspace) policy lane
    refine ⟨_, by simp, rfl, hpolicy, ?_, hwaiting, congrArg pending hrequest, ?_, ?_⟩
    · rcases hmerged with hsame | ⟨found, hfound, hsame⟩
      · exact .inl hsame
      · obtain ⟨hmem, hworkspace⟩ := mem_of_findPending hfound
        exact .inr ⟨found, hmem, hworkspace, hsame⟩
    · rw [hrequest]
    · rw [hrequest]

end EnhancementQueue

/-! ## The limits in a run -/

namespace EnhancementSystem

open EnhancementQueue DispatchState

variable {places : Nat} {system next first : EnhancementSystem Workspace}
  {event : EnhancementEvent Workspace}

/-- The limits of the queue. -/
structure LimitsOk (places : Nat) (system : EnhancementSystem Workspace) : Prop where
  distinct : DistinctPending system.queue.pending
  length_le : system.queue.pending.length ≤ maxPending
  pendingLen_eq : system.queue.pendingLen = system.queue.pending.length
  live_nodup : (system.live.map LiveWorker.workspace).Nodup
  own_le : ∀ lane, ownIn system.queue.started lane ≤ places

theorem ownIn_ownLive_le (queue : EnhancementQueue Workspace) (live : List (LiveWorker Workspace))
    (lane : WorkerLane) : ownIn (queue.ownLive live) lane ≤ ownIn queue.started lane :=
  (List.filter_sublist.filter _).length_le

theorem step_dispatch (places : Nat) (system : EnhancementSystem Workspace)
    (host : WorkerHost Workspace) :
    step places system (.dispatch host) =
      (system.queue.dispatch places host system.live).map fun result => ⟨result.1, result.2.1⟩ :=
  rfl

/-- Every event keeps the limits, and none panics. -/
theorem limitsOk_step (h : LimitsOk places system) (event : EnhancementEvent Workspace) :
    ∃ next, step places system event = some next ∧ LimitsOk places next := by
  cases event with
  | request host workspace policy =>
    refine ⟨_, rfl, ?_⟩
    rcases request_cases system.queue host workspace policy with
      ⟨-, hsame⟩ | ⟨added, -, -, -, -, -, hpending, hstarted, hlen⟩
    · rw [hsame]
      exact h
    · have hinsert := length_insertPending_le system.queue.pending added
      have hle := h.length_le
      refine ⟨?_, ?_, hlen, h.live_nodup, ?_⟩
      · show DistinctPending (system.queue.request host workspace policy).pending
        rw [hpending]
        exact (distinct_insertPending h.distinct added).sublist ((evictOldest_sublist _).map _)
      · show (system.queue.request host workspace policy).pending.length ≤ maxPending
        rw [hpending]
        exact length_evictOldest_le (by omega)
      · show ∀ lane, ownIn (system.queue.request host workspace policy).started lane ≤ places
        rw [hstarted]
        exact h.own_le
  | touch workspaces =>
    have htouched := touched_touch h.distinct workspaces
    refine ⟨_, rfl, htouched.distinct, ?_, ?_, h.live_nodup, ?_⟩
    · exact htouched.length_eq.trans_le h.length_le
    · exact htouched.pendingLen_eq.trans (h.pendingLen_eq.trans htouched.length_eq.symm)
    · show ∀ lane, ownIn (system.queue.touch workspaces).started lane ≤ places
      rw [htouched.started_eq]
      exact h.own_le
  | dispatch host =>
    obtain ⟨last, hdispatch, hworkers, hrequests⟩ :=
      dispatch_ok places host h.distinct h.live_nodup
    refine ⟨_, by rw [step_dispatch, hdispatch, Option.map_some], hrequests.distinct, ?_, rfl,
      hworkers.live_nodup, fun lane => ?_⟩
    · exact hrequests.length_le.trans ((List.length_filter_le _ _).trans h.length_le)
    · have hown := hworkers.own_le lane
      have hbefore := (ownIn_ownLive_le system.queue system.live lane).trans (h.own_le lane)
      have hcapacity : (system.queue.dispatchStart places host system.live).capacity lane ≤
          places - ownIn (system.queue.ownLive system.live) lane := Nat.min_le_right _ _
      have hstart : (system.queue.dispatchStart places host system.live).started =
          system.queue.ownLive system.live := rfl
      rw [hstart] at hown
      show ownIn last.started lane ≤ places
      omega
  | exit process =>
    refine ⟨_, rfl, h.distinct, h.length_le, h.pendingLen_eq, ?_, h.own_le⟩
    exact h.live_nodup.sublist (List.erase_sublist.map _)

theorem run_concat (places : Nat) (first : EnhancementSystem Workspace)
    (history : List (EnhancementEvent Workspace)) (event : EnhancementEvent Workspace) :
    run places first (history ++ [event]) =
      (run places first history).bind fun system => step places system event := by
  unfold run
  rw [List.foldlM_append]
  simp

omit [DecidableEq Workspace] in
theorem limitsOk_new {live : List (LiveWorker Workspace)}
    (hlive : (live.map LiveWorker.workspace).Nodup) : LimitsOk places ⟨new, live⟩ :=
  ⟨List.nodup_nil, Nat.zero_le _, rfl, hlive, fun _ => Nat.zero_le _⟩

/-- The limits hold after every history. -/
theorem limitsOk_run (hfirst : LimitsOk places first) (history : List (EnhancementEvent Workspace)) :
    ∃ system, run places first history = some system ∧ LimitsOk places system := by
  induction history using List.reverseRecOn with
  | nil => exact ⟨first, rfl, hfirst⟩
  | append_singleton history event ih =>
    obtain ⟨system, hrun, hsystem⟩ := ih
    obtain ⟨next, hstep, hnext⟩ := limitsOk_step hsystem event
    refine ⟨next, ?_, hnext⟩
    rw [run_concat, hrun, Option.bind_some, hstep]

/-! ## Where a pending request comes from -/

/-- The workspace waits in the queue. -/
def Waits (system : EnhancementSystem Workspace) (workspace : Workspace) : Prop :=
  ∃ request ∈ system.queue.pending, request.workspace = workspace

/-- The workspace waits with the policy. -/
def WaitsFor (system : EnhancementSystem Workspace) (workspace : Workspace)
    (policy : EnhancementPolicy) : Prop :=
  ∃ request ∈ system.queue.pending, request.workspace = workspace ∧ request.policy = policy

/-- A request with the policy was accepted, and the workspace has waited ever since: the request
    is not older than any removal from the queue. -/
def RequestedSince (places : Nat) (first : EnhancementSystem Workspace)
    (history : List (EnhancementEvent Workspace)) (workspace : Workspace)
    (policy : EnhancementPolicy) : Prop :=
  ∃ before host after, history = before ++ .request host workspace policy :: after ∧
    policy.lane host workspace ≠ none ∧
    ∀ n ≤ after.length, ∃ system,
      run places first (before ++ .request host workspace policy :: after.take n) = some system ∧
        Waits system workspace

theorem requestedSince_concat {history : List (EnhancementEvent Workspace)} {workspace : Workspace}
    {policy : EnhancementPolicy} (h : RequestedSince places first history workspace policy)
    (hrun : run places first (history ++ [event]) = some next) (hwaits : Waits next workspace) :
    RequestedSince places first (history ++ [event]) workspace policy := by
  obtain ⟨before, host, after, rfl, hlane, hsince⟩ := h
  refine ⟨before, host, after ++ [event], by simp, hlane, fun n hn => ?_⟩
  rw [List.length_append, List.length_singleton] at hn
  rcases Nat.lt_or_ge after.length n with hlt | hle
  · have hall : n = (after ++ [event]).length := by simp; omega
    rw [hall, List.take_length]
    exact ⟨next, by simpa using hrun, hwaits⟩
  · rw [List.take_append_of_le_length hle]
    exact hsince n hle

theorem requestedSince_request {history : List (EnhancementEvent Workspace)} {workspace : Workspace}
    {policy : EnhancementPolicy} {host : WorkerHost Workspace}
    (hlane : policy.lane host workspace ≠ none)
    (hrun : run places first (history ++ [.request host workspace policy]) = some next)
    (hwaits : Waits next workspace) :
    RequestedSince places first (history ++ [.request host workspace policy]) workspace policy := by
  refine ⟨history, host, [], rfl, hlane, fun n hn => ?_⟩
  rw [List.take_nil]
  exact ⟨next, hrun, hwaits⟩

/-- A request that waits after an event waited before it, or was made by it. -/
theorem waitsFor_step (h : LimitsOk places system) (hstep : step places system event = some next)
    {workspace : Workspace} {policy : EnhancementPolicy} (hwaits : WaitsFor next workspace policy) :
    WaitsFor system workspace policy ∨
      ∃ host, event = .request host workspace policy ∧ policy.lane host workspace ≠ none := by
  cases event with
  | request host requested asked =>
    obtain rfl := Option.some.inj hstep
    rcases request_cases system.queue host requested asked with
      ⟨-, hsame⟩ | ⟨added, hlane, hworkspace, -, hpolicy, -, hpending, -, -⟩
    · left
      unfold WaitsFor at hwaits
      rw [hsame] at hwaits
      exact hwaits
    · obtain ⟨request, hrequest, rfl, rfl⟩ := hwaits
      have hrequest : request ∈ (system.queue.request host requested asked).pending := hrequest
      rw [hpending] at hrequest
      rcases mem_insertPending.mp ((evictOldest_sublist _).subset hrequest) with rfl | ⟨hold, -⟩
      · rcases hpolicy with hasked | ⟨waiting, hwaiting, hsame, hkept⟩
        · right
          exact ⟨host, by rw [hworkspace, hasked], by rwa [hworkspace, hasked]⟩
        · exact .inl ⟨waiting, hwaiting, hsame.trans hworkspace.symm, hkept⟩
      · exact .inl ⟨request, hold, rfl, rfl⟩
  | touch workspaces =>
    obtain rfl := Option.some.inj hstep
    exact .inl (((touched_touch h.distinct workspaces).same workspace policy).mp hwaits)
  | dispatch host =>
    left
    obtain ⟨last, hdispatch, -, hrequests⟩ := dispatch_ok places host h.distinct h.live_nodup
    rw [step_dispatch, hdispatch, Option.map_some] at hstep
    obtain rfl := Option.some.inj hstep
    obtain ⟨request, hrequest, rfl, rfl⟩ := hwaits
    obtain ⟨before, hbefore, hsame, hkept⟩ := hrequests.old request hrequest
    exact ⟨before, List.mem_of_mem_filter hbefore, hsame, hkept⟩
  | exit process =>
    obtain rfl := Option.some.inj hstep
    exact .inl hwaits

/-- The policy of a pending request was asked for since its workspace began to wait. -/
theorem requestedSince_run (hfirst : LimitsOk places first) (hempty : first.queue.pending = [])
    {history : List (EnhancementEvent Workspace)} (hrun : run places first history = some system)
    {workspace : Workspace} {policy : EnhancementPolicy} (hwaits : WaitsFor system workspace policy) :
    RequestedSince places first history workspace policy := by
  induction history using List.reverseRecOn generalizing system with
  | nil =>
    obtain rfl : first = system := Option.some.inj hrun
    obtain ⟨request, hrequest, -⟩ := hwaits
    simp [hempty] at hrequest
  | append_singleton history event ih =>
    obtain ⟨middle, hmiddle, hok⟩ := limitsOk_run hfirst history
    have hstep := hrun
    rw [run_concat, hmiddle, Option.bind_some] at hstep
    have hnow : Waits system workspace := by
      obtain ⟨request, hrequest, hworkspace, -⟩ := hwaits
      exact ⟨request, hrequest, hworkspace⟩
    rcases waitsFor_step hok hstep hwaits with hbefore | ⟨host, rfl, hlane⟩
    · exact requestedSince_concat (ih hmiddle hbefore) hrun hnow
    · exact requestedSince_request hlane hrun hnow

omit [DecidableEq Workspace] in
/-- Only a policy above `HashOnly` maps to the neural lane. -/
theorem ne_hashOnly_of_lane {policy : EnhancementPolicy} {host : WorkerHost Workspace}
    {workspace : Workspace} (h : policy.lane host workspace = some .neural) :
    policy ≠ .hashOnly := by
  rintro rfl
  have h : (if host.needsHash workspace then some WorkerLane.hash else none) = some .neural := h
  split at h
  · simp at h
  · simp at h

/-- In every state of every run, and for every dispatch in it: the limits of the queue hold, a
    dispatch starts no more workers than it has places for, and a neural worker only for a
    workspace whose waiting request asked for more than hash vectors. -/
theorem enhancementQueue_safe (places : Nat) {live : List (LiveWorker Workspace)}
    (hlive : (live.map LiveWorker.workspace).Nodup)
    (history : List (EnhancementEvent Workspace)) :
    ∃ system, run places ⟨new, live⟩ history = some system ∧
      (∀ lane, ownIn system.queue.started lane ≤ places) ∧
      (system.live.map LiveWorker.workspace).Nodup ∧
      system.queue.pending.length ≤ maxPending ∧
      system.queue.pendingLen = system.queue.pending.length ∧
      ∀ host, ∃ queue live' starts,
        system.queue.dispatch places host system.live = some (queue, live', starts) ∧
        (∀ lane, startedIn starts lane ≤ min (host.freePlaces lane)
          (places - ownIn (system.queue.ownLive system.live) lane)) ∧
        ∀ call ∈ starts, call.lane = .neural → ∃ policy, policy ≠ .hashOnly ∧
          RequestedSince places ⟨new, live⟩ history call.workspace policy := by
  have hfirst : LimitsOk places ⟨new, live⟩ := limitsOk_new hlive
  obtain ⟨system, hrun, hok⟩ := limitsOk_run hfirst history
  refine ⟨system, hrun, hok.own_le, hok.live_nodup, hok.length_le, hok.pendingLen_eq, fun host => ?_⟩
  obtain ⟨last, hdispatch, hworkers, hrequests⟩ := dispatch_ok places host hok.distinct hok.live_nodup
  refine ⟨_, _, _, hdispatch, fun lane => ?_, fun call hcall hneural => ?_⟩
  · have hadd := hworkers.starts_add lane
    have hcapacity : (system.queue.dispatchStart places host system.live).capacity lane =
      min (host.freePlaces lane) (places - ownIn (system.queue.ownLive system.live) lane) := rfl
    omega
  · obtain ⟨before, hbefore, hsame, hkind⟩ := hrequests.called call hcall
    rcases hkind with ⟨-, hhash⟩ | ⟨-, -, hlane⟩
    · rw [hhash] at hneural
      cases hneural
    · rw [hneural] at hlane
      refine ⟨before.policy, ne_hashOnly_of_lane hlane, ?_⟩
      exact requestedSince_run hfirst rfl hrun
        ⟨before, List.mem_of_mem_filter hbefore, hsame, rfl⟩

/-! A neural request that waits for a place, and one dispatch that has it. -/

private def neuralHost : WorkerHost Nat where
  freePlaces _ := 1
  lane _ _ := some .neural
  needsHash _ := false
  rootIsGone _ := false
  start workspace _ := some (workspace + 100)

theorem enhancementQueue_safe_sample :
    ∃ system, run 1 ⟨new, []⟩ [.request neuralHost 7 .neural, .request neuralHost 8 .hashOnly,
        .dispatch neuralHost] = some system ∧
      (∀ lane, ownIn system.queue.started lane ≤ 1) ∧ (system.live.map LiveWorker.workspace).Nodup := by
  obtain ⟨system, hrun, hown, hlive, -⟩ := enhancementQueue_safe 1
    (show (([] : List (LiveWorker Nat)).map LiveWorker.workspace).Nodup from List.nodup_nil)
    [.request neuralHost 7 .neural, .request neuralHost 8 .hashOnly, .dispatch neuralHost]
  exact ⟨system, hrun, hown, hlive⟩

/-! ## What becomes of an accepted request -/

/-- The dispatch settles the request: the root is gone, or under the pending policy, which is no
    lower than the requested one, there is no work left or its worker was started. -/
def Settles (places : Nat) (system : EnhancementSystem Workspace) (host : WorkerHost Workspace)
    (workspace : Workspace) (policy : EnhancementPolicy) : Prop :=
  host.rootIsGone workspace = true ∨
    ∃ request ∈ system.queue.pending, request.workspace = workspace ∧
      policy.rank ≤ request.policy.rank ∧
      (request.policy.lane host workspace = none ∨
        ∃ queue live starts, system.queue.dispatch places host system.live =
            some (queue, live, starts) ∧
          ∃ call ∈ starts, ServesRequest host request call ∧ call.pid ≠ none)

/-- The workspace waits with the requested policy or a higher one. -/
def WaitsAtLeast (system : EnhancementSystem Workspace) (workspace : Workspace)
    (policy : EnhancementPolicy) : Prop :=
  ∃ request ∈ system.queue.pending, request.workspace = workspace ∧
    policy.rank ≤ request.policy.rank

/-- After the events that followed an accepted request it still waits, or one of them settled
    it. -/
def NotLost (places : Nat) (first : EnhancementSystem Workspace)
    (before : List (EnhancementEvent Workspace)) (workspace : Workspace)
    (policy : EnhancementPolicy) (after : List (EnhancementEvent Workspace)) : Prop :=
  (∃ system, run places first (before ++ after) = some system ∧
    WaitsAtLeast system workspace policy) ∨
  ∃ middle host rest system, after = middle ++ .dispatch host :: rest ∧
    run places first (before ++ middle) = some system ∧
    Settles places system host workspace policy

/-- The event evicts no request: it adds a workspace only while there is room. -/
def HasRoom (system : EnhancementSystem Workspace) : EnhancementEvent Workspace → Prop
  | .request _ workspace _ => Waits system workspace ∨ system.queue.pending.length < maxPending
  | _ => True

/-- No call of `start` fails in the event, but for the hash vectors of a workspace that goes on
    waiting for its neural place. -/
def StartsSucceed (places : Nat) (system : EnhancementSystem Workspace) :
    EnhancementEvent Workspace → Prop
  | .dispatch host => ∀ queue live starts,
    system.queue.dispatch places host system.live = some (queue, live, starts) →
      ∀ call ∈ starts, call.hashWhileWaiting = false → call.pid ≠ none
  | _ => True

theorem waitsAtLeast_request {host : WorkerHost Workspace} {requested : Workspace}
    {asked policy : EnhancementPolicy} {workspace : Workspace} (h : LimitsOk places system)
    (hroom : HasRoom system (.request host requested asked))
    (hwaits : WaitsAtLeast system workspace policy ∨
      (requested = workspace ∧ asked = policy ∧ asked.lane host requested ≠ none)) :
    WaitsAtLeast { system with queue := system.queue.request host requested asked } workspace
      policy := by
  rcases request_cases system.queue host requested asked with
    ⟨hnone, hsame⟩ | ⟨added, hlane, hadded, hasked, -, hmerged, hpending, -, -⟩
  · rcases hwaits with hwaits | ⟨-, -, hlane⟩
    · rw [hsame]
      exact hwaits
    · exact absurd hnone hlane
  · -- There is room, so nothing is evicted.
    have hlength : (insertPending system.queue.pending added).length ≤ maxPending := by
      rcases hroom with ⟨waiting, hwaiting, hworkspace⟩ | hlt
      · exact (length_insertPending_of_mem hwaiting (hadded.trans hworkspace.symm)).trans h.length_le
      · have := length_insertPending_le system.queue.pending added
        omega
    have hkeep : (system.queue.request host requested asked).pending =
        insertPending system.queue.pending added := by
      rw [hpending]
      exact if_neg (Nat.not_lt.mpr hlength)
    have hnew : ∀ request ∈ insertPending system.queue.pending added,
        request.workspace = workspace → policy.rank ≤ request.policy.rank →
        WaitsAtLeast { system with queue := system.queue.request host requested asked } workspace
          policy := by
      intro request hrequest hworkspace hrank
      refine ⟨request, ?_, hworkspace, hrank⟩
      show request ∈ (system.queue.request host requested asked).pending
      rwa [hkeep]
    rcases hwaits with ⟨request, hrequest, rfl, hrank⟩ | ⟨rfl, rfl, -⟩
    · by_cases hsame : request.workspace = added.workspace
      · have hfind : findPending system.queue.pending requested = some request :=
          (findPending_eq_some_iff h.distinct).mpr ⟨hrequest, hsame.trans hadded⟩
        exact hnew added (mem_insertPending.mpr (.inl rfl)) hsame.symm
          (hrank.trans (hmerged request hfind))
      · exact hnew request (mem_insertPending.mpr (.inr ⟨hrequest, hsame⟩)) rfl hrank
    · exact hnew added (mem_insertPending.mpr (.inl rfl)) hadded hasked

/-- One event after an accepted request: it goes on waiting, or the event settles it. -/
theorem waitsAtLeast_step {workspace : Workspace} {policy : EnhancementPolicy}
    (h : LimitsOk places system) (hroom : HasRoom system event)
    (hstarts : StartsSucceed places system event)
    (hstep : step places system event = some next) (hwaits : WaitsAtLeast system workspace policy) :
    WaitsAtLeast next workspace policy ∨
      ∃ host, event = .dispatch host ∧ Settles places system host workspace policy := by
  cases event with
  | request host requested asked =>
    obtain rfl := Option.some.inj hstep
    exact .inl (waitsAtLeast_request h hroom (.inl hwaits))
  | touch workspaces =>
    obtain rfl := Option.some.inj hstep
    obtain ⟨request, hrequest, hworkspace, hrank⟩ := hwaits
    obtain ⟨kept, hkept, hsame, hpolicy⟩ :=
      ((touched_touch h.distinct workspaces).same workspace request.policy).mpr
        ⟨request, hrequest, hworkspace, rfl⟩
    exact .inl ⟨kept, hkept, hsame, by rw [hpolicy]; exact hrank⟩
  | dispatch host =>
    obtain ⟨last, hdispatch, -, hrequests⟩ := dispatch_ok places host h.distinct h.live_nodup
    rw [step_dispatch, hdispatch, Option.map_some] at hstep
    obtain rfl := Option.some.inj hstep
    obtain ⟨request, hrequest, rfl, hrank⟩ := hwaits
    cases hgone : host.rootIsGone request.workspace with
    | true => exact .inr ⟨host, rfl, .inl hgone⟩
    | false =>
      have hfirst : request ∈ (system.queue.dispatchStart places host system.live).pending :=
        List.mem_filter.mpr ⟨hrequest, by simp [hgone]⟩
      rcases hrequests.kept request hfirst with
        ⟨kept, hkept, hsame, hpolicy⟩ | hnone | ⟨call, hcall, hserves⟩
      · exact .inl ⟨kept, hkept, hsame, by rw [hpolicy]; exact hrank⟩
      · exact .inr ⟨host, rfl, .inr ⟨request, hrequest, rfl, hrank, .inl hnone⟩⟩
      · refine .inr ⟨host, rfl, .inr ⟨request, hrequest, rfl, hrank, .inr ?_⟩⟩
        exact ⟨_, _, _, hdispatch, call, hcall, hserves,
          hstarts _ _ _ hdispatch call hcall hserves.2.1⟩
  | exit process =>
    obtain rfl := Option.some.inj hstep
    exact .inl hwaits

/-- In every run without an eviction in which no start fails: at every point after an accepted
    request, the workspace waits for the requested work, or a dispatch found its root gone, found
    the work done, or started its worker. -/
theorem accepted_request_not_lost (places : Nat) {live : List (LiveWorker Workspace)}
    (hlive : (live.map LiveWorker.workspace).Nodup) (history : List (EnhancementEvent Workspace))
    (hsteps : ∀ before event after system, history = before ++ event :: after →
      run places ⟨new, live⟩ before = some system →
      HasRoom system event ∧ StartsSucceed places system event)
    (before after rest : List (EnhancementEvent Workspace)) (host : WorkerHost Workspace)
    (workspace : Workspace) (policy : EnhancementPolicy)
    (hhistory : history = before ++ .request host workspace policy :: (after ++ rest))
    (hlane : policy.lane host workspace ≠ none) :
    NotLost places ⟨new, live⟩ (before ++ [.request host workspace policy]) workspace policy
      after := by
  have hfirst : LimitsOk places ⟨new, live⟩ := limitsOk_new hlive
  induction after using List.reverseRecOn generalizing rest with
  | nil =>
    obtain ⟨system, hrun, hok⟩ := limitsOk_run hfirst before
    left
    refine ⟨_, ?_, waitsAtLeast_request hok (hsteps _ _ _ _ hhistory hrun).1
      (.inr ⟨rfl, rfl, hlane⟩)⟩
    rw [List.append_nil, run_concat, hrun, Option.bind_some]
    rfl
  | append_singleton after event ih =>
    rcases ih (event :: rest) (by rw [hhistory]; simp) with
      ⟨system, hrun, hwaits⟩ | ⟨middle, found, more, system, rfl, hrun, hsettles⟩
    · -- It waits before the event.
      obtain ⟨same, hsame, hok⟩ :=
        limitsOk_run hfirst (before ++ [.request host workspace policy] ++ after)
      obtain rfl : system = same := Option.some.inj (hrun.symm.trans hsame)
      obtain ⟨hroom, hstarts⟩ :=
        hsteps (before ++ [.request host workspace policy] ++ after) event rest system
          (by rw [hhistory]; simp) hrun
      obtain ⟨next, hstep, -⟩ := limitsOk_step hok event
      rcases waitsAtLeast_step hok hroom hstarts hstep hwaits with hnext | ⟨found, rfl, hsettles⟩
      · left
        refine ⟨next, ?_, hnext⟩
        rw [← List.append_assoc, run_concat, hrun, Option.bind_some, hstep]
      · exact .inr ⟨after, found, [], system, rfl, hrun, hsettles⟩
    · exact .inr ⟨middle, found, more ++ [event], system, by simp, hrun, hsettles⟩

/-- A neural worker that the system cannot start. -/
private def failingHost : WorkerHost Nat := { neuralHost with start := fun _ _ => none }

private def neuralRequested : EnhancementSystem Nat :=
  ⟨⟨[⟨7, .neural, .neural, 1, true⟩], [], 1, 1⟩, []⟩

private theorem run_neuralRequested :
    run 1 ⟨new, []⟩ [.request neuralHost 7 .neural] = some neuralRequested := rfl

theorem accepted_request_not_lost_sample :
    NotLost 1 ⟨new, []⟩ [.request neuralHost 7 .neural] 7 .neural [.dispatch neuralHost] := by
  have hdispatch : neuralRequested.queue.dispatch 1 neuralHost [] =
      some (⟨[], [⟨7, .neural, 107⟩], 1, 0⟩, [⟨7, 107⟩], [⟨7, .neural, false, some 107⟩]) := rfl
  refine accepted_request_not_lost 1
    (show (([] : List (LiveWorker Nat)).map LiveWorker.workspace).Nodup from List.nodup_nil)
    [.request neuralHost 7 .neural, .dispatch neuralHost] ?_ [] [.dispatch neuralHost] []
    neuralHost 7 .neural rfl (by simp [EnhancementPolicy.lane, neuralHost])
  intro before event after system hhistory hrun
  rcases before with _ | ⟨first, before⟩
  · obtain ⟨rfl, -⟩ := List.cons.inj hhistory
    obtain rfl := Option.some.inj hrun
    exact ⟨.inr (by decide), trivial⟩
  · obtain ⟨rfl, htail⟩ := List.cons.inj hhistory
    rcases before with _ | ⟨second, before⟩
    · obtain ⟨rfl, -⟩ := List.cons.inj htail
      obtain rfl := Option.some.inj (run_neuralRequested.symm.trans hrun)
      refine ⟨trivial, fun queue live starts hfound call hcall _ => ?_⟩
      obtain rfl := (Prod.ext_iff.mp (Prod.ext_iff.mp
        (Option.some.inj (hdispatch.symm.trans hfound))).2).2
      obtain rfl : call = ⟨7, .neural, false, some 107⟩ := by simpa using hcall
      simp
    · simp at htail

/-- A start that fails discards the request: the work is not done, and nothing waits. -/
theorem failed_start_discards_request :
    HasRoom ⟨new, []⟩ (.request failingHost 7 .neural) ∧
      EnhancementPolicy.neural.lane failingHost 7 ≠ none ∧
      ¬ NotLost 1 ⟨new, []⟩ [.request failingHost 7 .neural] 7 .neural [.dispatch failingHost] := by
  have hrequest : run 1 ⟨new, []⟩ [.request failingHost 7 .neural] = some neuralRequested := rfl
  have hdispatch : neuralRequested.queue.dispatch 1 failingHost [] =
      some (⟨[], [], 1, 0⟩, [], [⟨7, .neural, false, none⟩]) := rfl
  have hafter : run 1 ⟨new, []⟩ [.request failingHost 7 .neural, .dispatch failingHost] =
      some ⟨⟨[], [], 1, 0⟩, []⟩ := rfl
  refine ⟨.inr (by decide), by simp [EnhancementPolicy.lane, failingHost, neuralHost], ?_⟩
  rintro (⟨system, hrun, request, hmem, -⟩ |
    ⟨middle, host, rest, system, hevents, hrun, hsettles⟩)
  · obtain rfl := Option.some.inj (hafter.symm.trans hrun)
    simp at hmem
  · -- The only dispatch is the one that fails.
    rcases middle with _ | ⟨event, middle⟩
    · obtain ⟨hhost, -⟩ := List.cons.inj hevents
      obtain rfl : failingHost = host := EnhancementEvent.dispatch.inj hhost
      obtain rfl := Option.some.inj (hrequest.symm.trans hrun)
      rcases hsettles with hgone | ⟨request, hmem, -, -, hnone | ⟨queue, live, starts, hfound, call, hcall, -, hpid⟩⟩
      · cases hgone
      · obtain rfl : request = ⟨7, .neural, .neural, 1, true⟩ := by
          simpa [neuralRequested] using hmem
        cases hnone
      · obtain rfl := (Prod.ext_iff.mp (Prod.ext_iff.mp
          (Option.some.inj (hdispatch.symm.trans hfound))).2).2
        obtain rfl : call = ⟨7, .neural, false, none⟩ := by simpa using hcall
        exact hpid rfl
    · obtain ⟨-, htail⟩ := List.cons.inj hevents
      simp at htail

end EnhancementSystem

end Ivygrep.Native
