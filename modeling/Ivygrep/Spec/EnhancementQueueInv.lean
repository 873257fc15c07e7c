import Ivygrep.Native.EnhancementQueue

/-!
# One dispatch of the enhancement queue

What a round of the dispatch loop can do, and what all rounds together keep: the places that
are left and the workers that were started make up the capacity at the start, and a request
leaves the queue only with its work done or a call of `start` for it.
-/

namespace Ivygrep.Native

variable {Workspace : Type} [DecidableEq Workspace]

/-! ## The map of pending requests -/

section Map

variable {pending : List (PendingRequest Workspace)} {request other : PendingRequest Workspace}
  {workspace : Workspace}

omit [DecidableEq Workspace] in
/-- No two requests are for the same workspace. -/
def DistinctPending (pending : List (PendingRequest Workspace)) : Prop :=
  (pending.map PendingRequest.workspace).Nodup

theorem mem_of_findPending (h : findPending pending workspace = some request) :
    request ∈ pending ∧ request.workspace = workspace :=
  ⟨List.mem_of_find?_eq_some h, by simpa using List.find?_some h⟩

theorem isSome_findPending (h : workspace ∈ pending.map PendingRequest.workspace) :
    ∃ request, findPending pending workspace = some request := by
  obtain ⟨request, hmem, rfl⟩ := List.mem_map.mp h
  apply Option.isSome_iff_exists.mp
  unfold findPending
  rw [List.find?_isSome]
  exact ⟨request, hmem, by simp⟩

/-- With distinct workspaces the request that is found is the only one. -/
theorem findPending_eq_some_iff (h : DistinctPending pending) :
    findPending pending workspace = some request ↔
      request ∈ pending ∧ request.workspace = workspace := by
  refine ⟨mem_of_findPending, fun hmem => ?_⟩
  obtain ⟨found, hfound⟩ := isSome_findPending (List.mem_map.mpr ⟨request, hmem⟩)
  obtain ⟨hin, hworkspace⟩ := mem_of_findPending hfound
  rw [hfound, List.inj_on_of_nodup_map h hin hmem.1 (hworkspace.trans hmem.2.symm)]

theorem mem_removePending :
    request ∈ removePending pending workspace ↔ request ∈ pending ∧ request.workspace ≠ workspace := by
  unfold removePending
  simp

theorem mem_insertPending :
    other ∈ insertPending pending request ↔
      other = request ∨ (other ∈ pending ∧ other.workspace ≠ request.workspace) := by
  unfold insertPending
  rw [List.mem_cons, mem_removePending]

theorem distinct_removePending (h : DistinctPending pending) (workspace : Workspace) :
    DistinctPending (removePending pending workspace) :=
  h.sublist (List.filter_sublist.map _)

theorem distinct_insertPending (h : DistinctPending pending) (request : PendingRequest Workspace) :
    DistinctPending (insertPending pending request) := by
  unfold insertPending DistinctPending
  rw [List.map_cons, List.nodup_cons]
  refine ⟨fun hmem => ?_, distinct_removePending h _⟩
  obtain ⟨other, hother, hworkspace⟩ := List.mem_map.mp hmem
  exact (mem_removePending.mp hother).2 hworkspace

theorem length_removePending_le (pending : List (PendingRequest Workspace)) (workspace : Workspace) :
    (removePending pending workspace).length ≤ pending.length :=
  List.length_filter_le _ _

theorem length_removePending_lt (h : request ∈ pending) :
    (removePending pending request.workspace).length < pending.length :=
  List.length_filter_lt_length_iff_exists.mpr ⟨request, h, by simp⟩

theorem length_insertPending_le (pending : List (PendingRequest Workspace))
    (request : PendingRequest Workspace) :
    (insertPending pending request).length ≤ pending.length + 1 :=
  Nat.succ_le_succ (length_removePending_le _ _)

/-- A write to a waiting request adds none. -/
theorem length_insertPending_of_mem (h : other ∈ pending)
    (hworkspace : request.workspace = other.workspace) :
    (insertPending pending request).length ≤ pending.length := by
  unfold insertPending
  rw [hworkspace]
  exact length_removePending_lt h

end Map

/-! ## One round -/

namespace DispatchState

/-- What a round can do with the request that it found. -/
inductive Round (host : WorkerHost Workspace) (state : DispatchState Workspace)
    (request : PendingRequest Workspace) : DispatchState Workspace → Prop where
  | skip : Round host state request state
  | write (written : PendingRequest Workspace) (hworkspace : written.workspace = request.workspace)
      (hpolicy : written.policy = request.policy) :
      Round host state request { state with pending := insertPending state.pending written }
  | done (hlane : request.policy.lane host request.workspace = none) :
      Round host state request
        { state with pending := removePending state.pending request.workspace }
  | hashStart (hidle : worker state.live request.workspace = none)
      (hfree : 0 < state.capacity .hash) :
      Round host state request (startWorker host
        { state with pending := insertPending state.pending { request with hashFirst := false } }
        request.workspace .hash true)
  | start (lane : WorkerLane) (hlane : request.policy.lane host request.workspace = some lane)
      (hidle : worker state.live request.workspace = none) (hfree : 0 < state.capacity lane) :
      Round host state request (startWorker host
        { state with pending := removePending state.pending request.workspace }
        request.workspace lane false)

theorem round_of_dispatchOne {host : WorkerHost Workspace} {state next : DispatchState Workspace}
    {workspace : Workspace} (h : dispatchOne host state workspace = some next) :
    ∃ request, findPending state.pending workspace = some request ∧
      Round host state request next := by
  unfold dispatchOne at h
  obtain ⟨request, hfind, rfl⟩ := Option.map_eq_some_iff.mp h
  refine ⟨request, hfind, ?_⟩
  obtain rfl := (mem_of_findPending hfind).2
  dsimp only
  split
  · exact .skip
  · rename_i hroom
    split
    · exact .skip
    · rename_i hidle
      have hidle : worker state.live request.workspace = none := by simpa using hidle
      split
      · rename_i hwait
        split
        · refine .hashStart hidle ?_
          simp only [Bool.and_eq_true, decide_eq_true_eq] at hwait
          exact hwait.2
        · exact .write _ rfl rfl
      · split
        · rename_i hlane
          exact .done hlane
        · rename_i lane hlane
          split
          · exact .write _ rfl rfl
          · rename_i hfree
            exact .start lane hlane hidle (Nat.pos_of_ne_zero hfree)

theorem startWorker_failed {host : WorkerHost Workspace} {workspace : Workspace}
    {lane : WorkerLane} (h : host.start workspace lane = none) (state : DispatchState Workspace)
    (hashWhileWaiting : Bool) :
    startWorker host state workspace lane hashWhileWaiting =
      { state with starts := state.starts ++ [⟨workspace, lane, hashWhileWaiting, none⟩] } := by
  unfold startWorker
  rw [h]

/-- A worker that was started lives, so its place is taken. -/
theorem startWorker_started {host : WorkerHost Workspace} {workspace : Workspace}
    {lane : WorkerLane} {pid : Nat} (h : host.start workspace lane = some pid)
    (state : DispatchState Workspace) (hashWhileWaiting : Bool) :
    startWorker host state workspace lane hashWhileWaiting =
      { state with
        starts := state.starts ++ [⟨workspace, lane, hashWhileWaiting, some pid⟩]
        live := ⟨workspace, pid⟩ :: state.live
        capacity := takePlace state.capacity lane
        started := ⟨workspace, lane, pid⟩ ::
          state.started.filter fun worker => worker.workspace ≠ workspace } := by
  have hworker : worker (⟨workspace, pid⟩ :: state.live) workspace = some pid := by
    simp [worker]
  unfold startWorker
  rw [h]
  dsimp only
  rw [hworker]

/-! ## The workers of a dispatch -/

/-- The calls that started a worker in the lane. -/
def startedIn (starts : List (StartCall Workspace)) (lane : WorkerLane) : Nat :=
  (starts.filter fun call => decide (call.lane = lane) && call.pid.isSome).length

/-- The workers of the queue in the lane. -/
def ownIn (started : List (StartedWorker Workspace)) (lane : WorkerLane) : Nat :=
  (started.filter fun worker => worker.lane = lane).length

/-- One live worker for each workspace, and every place that is gone went to a worker. -/
structure WorkersOk (first state : DispatchState Workspace) : Prop where
  live_nodup : (state.live.map LiveWorker.workspace).Nodup
  starts_add : ∀ lane, startedIn state.starts lane + state.capacity lane = first.capacity lane
  own_le : ∀ lane, ownIn state.started lane + state.capacity lane ≤
    ownIn first.started lane + first.capacity lane

theorem worker_eq_none_iff {live : List (LiveWorker Workspace)} {workspace : Workspace} :
    worker live workspace = none ↔ workspace ∉ live.map LiveWorker.workspace := by
  unfold worker
  rw [Option.map_eq_none_iff, List.find?_eq_none]
  simp

theorem takePlace_self {capacity : WorkerLane → Nat} {lane : WorkerLane} (h : 0 < capacity lane) :
    takePlace capacity lane lane + 1 = capacity lane := by
  unfold takePlace
  rw [if_pos rfl]
  omega

theorem takePlace_of_ne {capacity : WorkerLane → Nat} {lane other : WorkerLane} (h : other ≠ lane) :
    takePlace capacity lane other = capacity other :=
  if_neg h

omit [DecidableEq Workspace] in
theorem startedIn_concat_failed (starts : List (StartCall Workspace)) (workspace : Workspace)
    (called lane : WorkerLane) (waiting : Bool) :
    startedIn (starts ++ [⟨workspace, called, waiting, none⟩]) lane = startedIn starts lane := by
  unfold startedIn
  simp

omit [DecidableEq Workspace] in
theorem startedIn_concat_started (starts : List (StartCall Workspace)) (workspace : Workspace)
    (called lane : WorkerLane) (waiting : Bool) (pid : Nat) :
    startedIn (starts ++ [⟨workspace, called, waiting, some pid⟩]) lane =
      startedIn starts lane + if called = lane then 1 else 0 := by
  unfold startedIn
  by_cases h : called = lane
  · simp [h]
  · simp [h]

theorem ownIn_insert_le (started : List (StartedWorker Workspace)) (workspace : Workspace)
    (called lane : WorkerLane) (pid : Nat) :
    ownIn (⟨workspace, called, pid⟩ :: started.filter fun worker => worker.workspace ≠ workspace)
        lane ≤ ownIn started lane + if called = lane then 1 else 0 := by
  have hsub : ((started.filter fun worker => worker.workspace ≠ workspace).filter
      fun worker => worker.lane = lane).length ≤
      (started.filter fun worker => worker.lane = lane).length :=
    (List.filter_sublist.filter _).length_le
  unfold ownIn
  rw [List.filter_cons]
  by_cases h : called = lane
  · simpa [h] using hsub
  · simpa [h] using hsub

theorem workersOk_startWorker {host : WorkerHost Workspace} {first state : DispatchState Workspace}
    (h : WorkersOk first state) {workspace : Workspace} {lane : WorkerLane}
    (hidle : worker state.live workspace = none) (hfree : 0 < state.capacity lane)
    (hashWhileWaiting : Bool) :
    WorkersOk first (startWorker host state workspace lane hashWhileWaiting) := by
  cases hstart : host.start workspace lane with
  | none =>
    rw [startWorker_failed hstart]
    refine ⟨h.live_nodup, fun other => ?_, h.own_le⟩
    show startedIn (state.starts ++ _) other + state.capacity other = _
    rw [startedIn_concat_failed, h.starts_add]
  | some pid =>
    rw [startWorker_started hstart]
    have htaken := takePlace_self hfree
    refine ⟨?_, fun other => ?_, fun other => ?_⟩
    · show (workspace :: state.live.map LiveWorker.workspace).Nodup
      exact List.nodup_cons.mpr ⟨worker_eq_none_iff.mp hidle, h.live_nodup⟩
    · have hadd := h.starts_add other
      show startedIn (state.starts ++ _) other + takePlace state.capacity lane other = _
      rw [startedIn_concat_started]
      by_cases hlane : lane = other
      · subst hlane
        rw [if_pos rfl]
        omega
      · rw [if_neg hlane, takePlace_of_ne fun heq => hlane heq.symm]
        omega
    · have hle := h.own_le other
      have hown := ownIn_insert_le state.started workspace lane other pid
      show ownIn (_ :: _) other + takePlace state.capacity lane other ≤ _
      by_cases hlane : lane = other
      · subst hlane
        rw [if_pos rfl] at hown
        omega
      · rw [if_neg hlane] at hown
        rw [takePlace_of_ne fun heq => hlane heq.symm]
        omega

omit [DecidableEq Workspace] in
/-- The pending requests are no part of it. -/
theorem workersOk_pending {first state : DispatchState Workspace} (h : WorkersOk first state)
    (pending : List (PendingRequest Workspace)) : WorkersOk first { state with pending } :=
  ⟨h.live_nodup, h.starts_add, h.own_le⟩

theorem workersOk_round {host : WorkerHost Workspace} {first state next : DispatchState Workspace}
    {request : PendingRequest Workspace} (h : WorkersOk first state)
    (hround : Round host state request next) : WorkersOk first next := by
  cases hround with
  | skip => exact h
  | write => exact workersOk_pending h _
  | done => exact workersOk_pending h _
  | hashStart hidle hfree =>
    apply workersOk_startWorker
    · exact workersOk_pending h _
    · exact hidle
    · exact hfree
  | start lane _ hidle hfree =>
    apply workersOk_startWorker
    · exact workersOk_pending h _
    · exact hidle
    · exact hfree

/-! ## The requests of a dispatch -/

/-- The call does the work of the pending request. -/
def ServesRequest (host : WorkerHost Workspace) (request : PendingRequest Workspace)
    (call : StartCall Workspace) : Prop :=
  call.workspace = request.workspace ∧ call.hashWhileWaiting = false ∧
    request.policy.lane host request.workspace = some call.lane

/-- What became of the requests that were pending at first, and where the calls come from. -/
structure RequestsOk (host : WorkerHost Workspace) (first pending : List (PendingRequest Workspace))
    (starts : List (StartCall Workspace)) : Prop where
  distinct : DistinctPending pending
  length_le : pending.length ≤ first.length
  old : ∀ request ∈ pending, ∃ before ∈ first,
    before.workspace = request.workspace ∧ before.policy = request.policy
  kept : ∀ before ∈ first,
    (∃ request ∈ pending, request.workspace = before.workspace ∧
      request.policy = before.policy) ∨
    before.policy.lane host before.workspace = none ∨
    ∃ call ∈ starts, ServesRequest host before call
  called : ∀ call ∈ starts, ∃ before ∈ first, before.workspace = call.workspace ∧
    (call.hashWhileWaiting = true ∧ call.lane = .hash ∨ ServesRequest host before call)

section Requests

variable {host : WorkerHost Workspace} {first pending : List (PendingRequest Workspace)}
  {starts : List (StartCall Workspace)} {request written : PendingRequest Workspace}

/-- A write that keeps the workspace and the policy. -/
theorem requestsOk_write (h : RequestsOk host first pending starts) (hmem : request ∈ pending)
    (hworkspace : written.workspace = request.workspace) (hpolicy : written.policy = request.policy) :
    RequestsOk host first (insertPending pending written) starts where
  distinct := distinct_insertPending h.distinct written
  length_le := (length_insertPending_of_mem hmem hworkspace).trans h.length_le
  old := by
    intro other hother
    rcases mem_insertPending.mp hother with rfl | ⟨hother, -⟩
    · obtain ⟨before, hbefore, hsame, hkept⟩ := h.old request hmem
      exact ⟨before, hbefore, hsame.trans hworkspace.symm, hkept.trans hpolicy.symm⟩
    · exact h.old other hother
  kept := by
    intro before hbefore
    rcases h.kept before hbefore with ⟨other, hother, hsame, hkept⟩ | hrest
    · refine .inl ?_
      by_cases hwritten : other.workspace = written.workspace
      · -- The request that is written over is the same one.
        have heq : other = request :=
          List.inj_on_of_nodup_map h.distinct hother hmem (hwritten.trans hworkspace)
        subst heq
        exact ⟨written, mem_insertPending.mpr (.inl rfl), hworkspace.trans hsame,
          hpolicy.trans hkept⟩
      · exact ⟨other, mem_insertPending.mpr (.inr ⟨hother, hwritten⟩), hsame, hkept⟩
    · exact .inr hrest
  called := h.called

/-- A removal with no work left to do. -/
theorem requestsOk_done (h : RequestsOk host first pending starts) (hmem : request ∈ pending)
    (hlane : request.policy.lane host request.workspace = none) :
    RequestsOk host first (removePending pending request.workspace) starts where
  distinct := distinct_removePending h.distinct _
  length_le := (length_removePending_le _ _).trans h.length_le
  old := fun other hother => h.old other (mem_removePending.mp hother).1
  kept := by
    intro before hbefore
    rcases h.kept before hbefore with ⟨other, hother, hsame, hkept⟩ | hrest
    · by_cases hremoved : other.workspace = request.workspace
      · have heq : other = request := List.inj_on_of_nodup_map h.distinct hother hmem hremoved
        subst heq
        rw [hkept, hsame] at hlane
        exact .inr (.inl hlane)
      · exact .inl ⟨other, mem_removePending.mpr ⟨hother, hremoved⟩, hsame, hkept⟩
    · exact .inr hrest
  called := h.called

omit [DecidableEq Workspace] in
/-- One more call, for a request that is or was pending. -/
theorem requestsOk_call (h : RequestsOk host first pending starts) {call : StartCall Workspace}
    (hcall : ∃ before ∈ first, before.workspace = call.workspace ∧
      (call.hashWhileWaiting = true ∧ call.lane = .hash ∨ ServesRequest host before call)) :
    RequestsOk host first pending (starts ++ [call]) where
  distinct := h.distinct
  length_le := h.length_le
  old := h.old
  kept := by
    intro before hbefore
    rcases h.kept before hbefore with hpending | hnone | ⟨served, hserved, hserves⟩
    · exact .inl hpending
    · exact .inr (.inl hnone)
    · exact .inr (.inr ⟨served, List.mem_append_left _ hserved, hserves⟩)
  called := by
    intro other hother
    rcases List.mem_append.mp hother with hother | hother
    · exact h.called other hother
    · obtain rfl : other = call := by simpa using hother
      exact hcall

/-- A request leaves for a call that does its work. -/
theorem requestsOk_start (h : RequestsOk host first pending starts) (hmem : request ∈ pending)
    {call : StartCall Workspace} (hserves : ServesRequest host request call) :
    RequestsOk host first (removePending pending request.workspace) (starts ++ [call]) := by
  have hbefore : ∀ before, before.workspace = request.workspace →
      before.policy = request.policy → ServesRequest host before call := by
    intro before hsame hkept
    unfold ServesRequest
    rw [hsame, hkept]
    exact hserves
  obtain ⟨before, hfirst, hsame, hkept⟩ := h.old request hmem
  have hcalled : RequestsOk host first pending (starts ++ [call]) := requestsOk_call h
    ⟨before, hfirst, hsame.trans hserves.1.symm, .inr (hbefore before hsame hkept)⟩
  refine ⟨distinct_removePending h.distinct _, (length_removePending_le _ _).trans h.length_le,
    fun other hother => h.old other (mem_removePending.mp hother).1, ?_, hcalled.called⟩
  intro other hother
  rcases hcalled.kept other hother with ⟨still, hstill, hworkspace, hpolicy⟩ | hrest
  · by_cases hremoved : still.workspace = request.workspace
    · have heq : still = request := List.inj_on_of_nodup_map h.distinct hstill hmem hremoved
      subst heq
      exact .inr (.inr ⟨call, by simp, hbefore other hworkspace.symm hpolicy.symm⟩)
    · exact .inl ⟨still, mem_removePending.mpr ⟨hstill, hremoved⟩, hworkspace, hpolicy⟩
  · exact .inr hrest

omit [DecidableEq Workspace] in
theorem requestsOk_first (h : DistinctPending pending) : RequestsOk host pending pending [] where
  distinct := h
  length_le := Nat.le_refl _
  old := fun request hrequest => ⟨request, hrequest, rfl, rfl⟩
  kept := fun before hbefore => .inl ⟨before, hbefore, rfl, rfl⟩
  called := fun _ hcall => absurd hcall List.not_mem_nil

end Requests

section Rounds

variable {host : WorkerHost Workspace} {state next : DispatchState Workspace}

theorem startWorker_requests (host : WorkerHost Workspace) (state : DispatchState Workspace)
    (workspace : Workspace) (lane : WorkerLane) (hashWhileWaiting : Bool) :
    (startWorker host state workspace lane hashWhileWaiting).pending = state.pending ∧
      (startWorker host state workspace lane hashWhileWaiting).starts =
        state.starts ++ [⟨workspace, lane, hashWhileWaiting, host.start workspace lane⟩] := by
  cases hstart : host.start workspace lane with
  | none => rw [startWorker_failed hstart]; exact ⟨rfl, rfl⟩
  | some pid => rw [startWorker_started hstart]; exact ⟨rfl, rfl⟩

theorem requestsOk_round {first : List (PendingRequest Workspace)}
    {request : PendingRequest Workspace} (h : RequestsOk host first state.pending state.starts)
    (hmem : request ∈ state.pending) (hround : Round host state request next) :
    RequestsOk host first next.pending next.starts := by
  cases hround with
  | skip => exact h
  | write written hworkspace hpolicy => exact requestsOk_write h hmem hworkspace hpolicy
  | done hlane => exact requestsOk_done h hmem hlane
  | hashStart hidle hfree =>
    obtain ⟨hpending, hstarts⟩ := startWorker_requests host
      { state with pending := insertPending state.pending { request with hashFirst := false } }
      request.workspace .hash true
    obtain ⟨before, hbefore, hsame, -⟩ := h.old request hmem
    rw [hpending, hstarts]
    apply requestsOk_call
    · exact requestsOk_write h hmem rfl rfl
    · exact ⟨before, hbefore, hsame, .inl ⟨rfl, rfl⟩⟩
  | start lane hlane hidle hfree =>
    obtain ⟨hpending, hstarts⟩ := startWorker_requests host
      { state with pending := removePending state.pending request.workspace }
      request.workspace lane false
    rw [hpending, hstarts]
    exact requestsOk_start h hmem ⟨rfl, rfl, hlane⟩

/-- A round removes no request but its own. -/
theorem mem_workspaces_of_round {request : PendingRequest Workspace} {workspace : Workspace}
    (hround : Round host state request next) (hne : workspace ≠ request.workspace)
    (h : workspace ∈ state.pending.map PendingRequest.workspace) :
    workspace ∈ next.pending.map PendingRequest.workspace := by
  obtain ⟨other, hother, rfl⟩ := List.mem_map.mp h
  cases hround with
  | skip => exact h
  | write written hworkspace hpolicy =>
    refine List.mem_map_of_mem (mem_insertPending.mpr (.inr ⟨hother, ?_⟩))
    rwa [hworkspace]
  | done hlane => exact List.mem_map_of_mem (mem_removePending.mpr ⟨hother, hne⟩)
  | hashStart hidle hfree =>
    rw [(startWorker_requests ..).1]
    exact List.mem_map_of_mem (mem_insertPending.mpr (.inr ⟨hother, hne⟩))
  | start lane hlane hidle hfree =>
    rw [(startWorker_requests ..).1]
    exact List.mem_map_of_mem (mem_removePending.mpr ⟨hother, hne⟩)

/-! ## The loop -/

/-- The loop finds every request that it looks for, and keeps both invariants. -/
theorem dispatchLoop_ok (host : WorkerHost Workspace) {first : DispatchState Workspace} {order : List Workspace}
    (hworkers : WorkersOk first state)
    (hrequests : RequestsOk host first.pending state.pending state.starts) (hnodup : order.Nodup)
    (hpending : ∀ workspace ∈ order, workspace ∈ state.pending.map PendingRequest.workspace) :
    ∃ last, dispatchLoop host order state = some last ∧ WorkersOk first last ∧
      RequestsOk host first.pending last.pending last.starts := by
  induction order generalizing state with
  | nil => exact ⟨state, rfl, hworkers, hrequests⟩
  | cons workspace order ih =>
    unfold dispatchLoop
    split
    · exact ⟨state, rfl, hworkers, hrequests⟩
    · obtain ⟨request, hfind⟩ := isSome_findPending (hpending workspace (List.mem_cons_self ..))
      have hsome : ∃ next, dispatchOne host state workspace = some next := by
        unfold dispatchOne
        rw [hfind]
        exact ⟨_, rfl⟩
      obtain ⟨next, hnext⟩ := hsome
      obtain ⟨found, hfound, hround⟩ := round_of_dispatchOne hnext
      obtain ⟨hmem, rfl⟩ := mem_of_findPending hfound
      rw [hnext, Option.bind_some]
      refine ih (workersOk_round hworkers hround) (requestsOk_round hrequests hmem hround)
        (List.nodup_cons.mp hnodup).2 fun other hother => ?_
      refine mem_workspaces_of_round hround ?_ (hpending other (List.mem_cons_of_mem _ hother))
      rintro rfl
      exact (List.nodup_cons.mp hnodup).1 hother

end Rounds

end DispatchState

/-! ## `dispatch` -/

namespace EnhancementQueue

open DispatchState

variable {live : List (LiveWorker Workspace)} {queue : EnhancementQueue Workspace}

omit [DecidableEq Workspace] in
theorem mem_dispatchOrder {pending : List (PendingRequest Workspace)} {workspace : Workspace} :
    workspace ∈ dispatchOrder pending ↔ workspace ∈ pending.map PendingRequest.workspace := by
  unfold dispatchOrder
  rw [List.mem_map, List.mem_map]
  simp only [List.mem_insertionSort]

omit [DecidableEq Workspace] in
theorem nodup_dispatchOrder {pending : List (PendingRequest Workspace)}
    (h : DistinctPending pending) : (dispatchOrder pending).Nodup := by
  unfold dispatchOrder
  rw [((List.perm_insertionSort _ pending).map PendingRequest.workspace).nodup_iff]
  exact h

/-- A dispatch returns. It takes places for its workers only, and gives up requests only for
    the reasons of `RequestsOk`. -/
theorem dispatch_ok (places : Nat) (host : WorkerHost Workspace) (hdistinct : DistinctPending queue.pending)
    (hlive : (live.map LiveWorker.workspace).Nodup) :
    ∃ last, queue.dispatch places host live =
        some ({ queue with
          pending := last.pending
          started := last.started
          pendingLen := last.pending.length }, last.live, last.starts) ∧
      WorkersOk (queue.dispatchStart places host live) last ∧
      RequestsOk host (queue.dispatchStart places host live).pending last.pending last.starts := by
  have hpending : DistinctPending (queue.dispatchStart places host live).pending :=
    hdistinct.sublist (List.filter_sublist.map _)
  have hworkers : WorkersOk (queue.dispatchStart places host live)
      (queue.dispatchStart places host live) :=
    ⟨hlive, fun _ => Nat.zero_add _, fun _ => Nat.le_refl _⟩
  obtain ⟨last, hloop, hlast⟩ := dispatchLoop_ok host hworkers (requestsOk_first hpending)
    (nodup_dispatchOrder hpending) fun _ h => mem_dispatchOrder.mp h
  refine ⟨last, ?_, hlast⟩
  unfold dispatch
  dsimp only
  rw [hloop]
  rfl

end EnhancementQueue

end Ivygrep.Native
