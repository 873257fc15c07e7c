import Ivygrep.Spec.IndexRequestWalks

/-!
# Steps of index requests

What each step does to the walks, from the requests' own steps over those of the lease's
holder to those of the watcher, and from it that `WalksOk` is kept.
-/

namespace Ivygrep.Native

namespace IndexRequests

variable {state next : IndexRequests} {index : Nat} {request : IndexRequest}
  {event : IndexEvent} {workspaceId : Str}

/-! ## What vouches for a request -/

/-- The request follows a leader, and has received this response. -/
def Receives (state : IndexRequests) (request : IndexRequest) (follower : IndexFollower)
    (response : DaemonResponse) : Prop :=
  ∃ number, request.stage = .following number ∧ state.flights.followers[number]? = some follower ∧
    follower.received = some response

/-- The walk noted last has succeeded with this filter. -/
def LastWalkServes (state : IndexRequests) (skipGitignore : Bool) : Prop :=
  ∃ walk, state.walks[state.walks.length - 1]? = some walk ∧ walk.outcome = some true ∧
    walk.skipGitignore = some skipGitignore

/-- What the noted start stands for where a request relies on it. A follower relies on a
    walk of its leader that was noted after it arrived, or on a later one that has
    succeeded; a request found current relies on a walk with its filter that has not
    failed; and metadata is registered only where there still is none. -/
def Vouched (state : IndexRequests) (event : IndexEvent) : Prop :=
  match event with
  | .follow index => ∀ request follower message,
    state.requests[index]? = some request → state.Receives request follower (.ack message) →
      state.fullIndexRunStartedAfter request.arrivedAt = true →
        state.LastWalkServes request.skipGitignore ∨
          ∀ (position : Nat) (leader : IndexRequest) (number : Nat),
            state.requests[position]? = some leader → leader.lead = some follower.lead →
              leader.walk = some number → request.walksBefore ≤ number
  | .skip index _ => ∀ request (walk : IndexWalk), state.requests[index]? = some request →
    state.walks[state.walks.length - 1]? = some walk →
      walk.outcome ≠ some false ∧ walk.skipGitignore = some request.skipGitignore
  | .writeRegistration _ => state.metadata = none
  | _ => True

/-! ## Steps of requests without the lease -/

theorem FilterIs.congr (hmetadata : next.metadata = state.metadata) (skipGitignore : Bool)
    (h : state.FilterIs skipGitignore) : next.FilterIs skipGitignore := by
  unfold FilterIs
  rw [hmetadata]
  exact h

/-- A request goes on to a stage, and nothing but it changes. -/
theorem WalksOk.setStage (h : state.WalksOk) (hrequest : state.requests[index]? = some request)
    {stage : RequestStage} (hstage : state.StageOk index { request with stage := stage }) :
    (state.setStage index request stage).WalksOk := by
  refine h.of_request rfl rfl rfl rfl rfl (FilterIs.congr rfl) ?_
  exact (h.requests index request hrequest).advance (Nat.le_refl _) (.refl _) rfl rfl hstage

theorem WalksOk.arrive (h : state.WalksOk) (watch skipGitignore detached : Bool) :
    (state.arrive watch skipGitignore detached).WalksOk := by
  refine ⟨h.clock, h.noted, h.lease, ?_⟩
  intro other found hfound
  have hkeeps : state.Keeps (state.arrive watch skipGitignore detached) other :=
    .of_same (Nat.le_refl _) rfl rfl (FilterIs.congr rfl)
  cases ForStd.getElem?_concat_eq_some hfound with
  | inl hold => exact (h.requests other found hold).keeps hkeeps
  | inr hnew =>
    rw [hnew.2]
    exact ⟨Nat.le_refl _, Nat.le_refl _, fun number walk hwalk _ => h.clock number walk hwalk,
      fun number walk hwalk hle => (not_added rfl hwalk hle).elim, trivial⟩

theorem WalksOk.joinOrLeadIndex (h : state.WalksOk)
    (hrequest : state.requests[index]? = some request) :
    (state.joinOrLeadIndex index request workspaceId).WalksOk := by
  have hok := h.requests index request hrequest
  have hrequests : (state.joinOrLeadIndex index request workspaceId).requests =
      state.requests.set index (state.slot request workspaceId) := rfl
  refine h.of_request hrequests rfl rfl rfl rfl (FilterIs.congr rfl) ?_
  unfold slot
  split
  · exact hok.advance (Nat.le_refl _) (.refl _) rfl rfl trivial
  · split
    · exact hok.advance (Nat.le_refl _) (.refl _) rfl rfl trivial
    · split
      · exact hok.advance (Nat.le_refl _) (.refl _) rfl rfl trivial
      · exact hok.advance (Nat.le_refl _) (.refl _) rfl rfl trivial

theorem WalksOk.follow (h : state.WalksOk) (hrequest : state.requests[index]? = some request)
    {response : DaemonResponse}
    (hserved : ∀ message, response = .ack message →
      state.fullIndexRunStartedAfter request.arrivedAt = true →
        ∃ number, state.ServedBy request number) :
    (state.follow index request response).WalksOk := by
  unfold IndexRequests.follow
  cases response with
  | error message =>
    apply h.setStage hrequest
    intro text hack
    cases hack
  | ack message =>
    simp only
    split
    · rename_i hafter
      apply h.setStage hrequest
      intro text hack
      exact hserved message rfl hafter
    · exact h.setStage hrequest trivial

theorem WalksOk.writeRegistration (h : state.WalksOk)
    (hrequest : state.requests[index]? = some request) (hmetadata : state.metadata = none) :
    (state.writeRegistration index request).WalksOk := by
  have hrequests : (state.writeRegistration index request).requests =
      state.requests.set index { request with stage := .registered } := rfl
  refine h.of_request hrequests rfl rfl rfl rfl ?_ ?_
  · intro skipGitignore hfilter
    obtain ⟨metadata, hsome, -⟩ := hfilter
    rw [hmetadata] at hsome
    cases hsome
  · exact (h.requests index request hrequest).advance (Nat.le_refl _) (.refl _) rfl rfl trivial

theorem WalksOk.run (h : state.WalksOk) (hrequest : state.requests[index]? = some request) :
    (state.run index request).WalksOk := by
  unfold IndexRequests.run
  split
  · refine h.of_request rfl rfl rfl rfl rfl (FilterIs.congr rfl) ?_
    exact ⟨Nat.le_refl _, Nat.le_refl _, fun number walk hwalk _ => h.clock number walk hwalk,
      fun number walk hwalk hle => (not_added rfl hwalk hle).elim, trivial⟩
  · exact h.setStage hrequest trivial

/-! ## Steps with the lease -/

/-- The holder of the lease goes on, and the walks grow with it. -/
theorem WalksOk.of_holder (h : state.WalksOk) (hrequest : state.requests[index]? = some request)
    (hheld : state.lease = none ∨ state.lease = some (.request index))
    {request' : IndexRequest} (hrequests : next.requests = state.requests.set index request')
    (hnow : next.now = state.now) (hgrows : Grows state.now state.walks next.walks)
    (hclock : ∀ (number : Nat) (walk : IndexWalk), next.walks[number]? = some walk →
      walk.started ≤ next.now)
    (hnoted : ∀ started, next.fullIndexRunStart = some started →
      ∃ walk, next.walks[next.walks.length - 1]? = some walk ∧ walk.started = started)
    (hlease : next.LeaseOk) (harrived : request'.arrivedAt = request.arrivedAt)
    (hbefore : request'.walksBefore = request.walksBefore)
    (hstage : next.StageOk index request') : next.WalksOk := by
  refine h.of_set hrequests hclock hnoted hlease ?_ ?_
  · intro other hother
    apply Keeps.of_free _ (Nat.le_of_eq hnow.symm) hgrows
    intro hheld'
    cases hheld with
    | inl hfree =>
      rw [hfree] at hheld'
      cases hheld'
    | inr hown =>
      rw [hown] at hheld'
      cases hheld'
      exact hother rfl
  · exact (h.requests index request hrequest).advance (Nat.le_of_eq hnow.symm) hgrows harrived
      hbefore hstage

theorem LeaseOk.of_request (hlease : state.lease = some (.request index)) : state.LeaseOk := by
  unfold LeaseOk
  rw [hlease]
  trivial

theorem StageOk.leased (h : state.StageOk index request) {generationOnArrival : Option UInt64}
    (hstage : request.stage = .leased generationOnArrival) :
    state.lease = some (.request index) ∧ state.EndedBelow state.walks.length := by
  unfold StageOk at h
  simpa only [hstage] using h

theorem StageOk.prepared (h : state.StageOk index request) {alreadyCurrent : Bool}
    (hstage : request.stage = .prepared alreadyCurrent) :
    state.lease = some (.request index) ∧ state.EndedBelow state.walks.length ∧
      state.FilterIs request.skipGitignore ∧
      (alreadyCurrent = true → ∃ walk, state.walks[state.walks.length - 1]? = some walk ∧
        request.arrivedAt < walk.started) := by
  unfold StageOk at h
  simpa only [hstage] using h

/-- While its walk goes on, a request holds the lease, and all walks before have ended. -/
theorem StageOk.walks (h : state.StageOk index request)
    (hstage : request.stage = .noted ∨ request.stage = .walking) :
    state.lease = some (.request index) ∧ state.EndedBelow (state.walks.length - 1) ∧
      state.FilterIs request.skipGitignore ∧
      ∃ filter, state.Walks request filter ∧
        (request.stage = .walking → filter = some request.skipGitignore) := by
  unfold StageOk at h
  cases hstage with
  | inl hnoted =>
    simp only [hnoted] at h
    obtain ⟨hlease, hended, hfilter, hwalks⟩ := h
    refine ⟨hlease, hended, hfilter, none, hwalks, ?_⟩
    intro hwalking
    rw [hnoted] at hwalking
    cases hwalking
  | inr hwalking =>
    simp only [hwalking] at h
    obtain ⟨hlease, hended, hfilter, hwalks⟩ := h
    exact ⟨hlease, hended, hfilter, _, hwalks, fun _ => rfl⟩

/-- The holder gives the lease up when every walk has ended. -/
theorem WalksOk.free (h : state.WalksOk) (hrequest : state.requests[index]? = some request)
    (hheld : state.lease = some (.request index)) (hended : state.EndedBelow state.walks.length)
    {request' : IndexRequest} (hrequests : next.requests = state.requests.set index request')
    (hnow : next.now = state.now) (hwalks : next.walks = state.walks)
    (hstart : next.fullIndexRunStart = state.fullIndexRunStart) (hlease : next.lease = none)
    (harrived : request'.arrivedAt = request.arrivedAt)
    (hbefore : request'.walksBefore = request.walksBefore)
    (hstage : next.StageOk index request') : next.WalksOk := by
  refine h.of_holder hrequest (.inr hheld) hrequests hnow (hwalks ▸ .refl _) ?_ ?_ ?_ harrived
    hbefore hstage
  · rw [hwalks, hnow]
    exact h.clock
  · rw [hwalks, hstart]
    exact h.noted
  · unfold LeaseOk
    rw [hlease, hwalks]
    exact hended.congr hwalks

theorem WalksOk.acquireIndexLease (h : state.WalksOk)
    (hrequest : state.requests[index]? = some request) (generationOnArrival : Option UInt64)
    (hfree : state.lease = none) :
    (state.acquireIndexLease index request generationOnArrival).WalksOk := by
  have hended := h.lease
  unfold LeaseOk at hended
  rw [hfree] at hended
  exact h.of_holder hrequest (.inl hfree) rfl rfl (.refl _) h.clock h.noted trivial rfl rfl
    ⟨rfl, hended⟩

theorem WalksOk.resolveAgain (h : state.WalksOk)
    (hrequest : state.requests[index]? = some request) {generationOnArrival : Option UInt64}
    (hstage : request.stage = .leased generationOnArrival) :
    (state.resolveAgain index request).WalksOk := by
  obtain ⟨hheld, hended⟩ := (h.requests index request hrequest).stage.leased hstage
  exact h.free hrequest hheld hended rfl rfl rfl rfl rfl rfl rfl trivial

theorem WalksOk.refuseCheckout (h : state.WalksOk)
    (hrequest : state.requests[index]? = some request) {generationOnArrival : Option UInt64}
    (hstage : request.stage = .leased generationOnArrival) (message : Str) :
    ({ state.refuse index request message with lease := none } : IndexRequests).WalksOk := by
  obtain ⟨hheld, hended⟩ := (h.requests index request hrequest).stage.leased hstage
  refine h.free hrequest hheld hended rfl rfl rfl rfl rfl rfl rfl ?_
  intro text hack
  cases hack

/-- `already_current` has seen a noted start after the request arrived. -/
theorem startedAfter_of_alreadyCurrent {generationOnArrival : Option UInt64}
    {replacement obsoleteOverlay : Bool}
    (h : state.alreadyCurrent request generationOnArrival replacement obsoleteOverlay = true) :
    state.fullIndexRunStartedAfter request.arrivedAt = true := by
  unfold alreadyCurrent at h
  exact (Bool.and_eq_true_iff.mp h).2

theorem WalksOk.prepare (h : state.WalksOk) (hrequest : state.requests[index]? = some request)
    {generationOnArrival : Option UInt64} (hstage : request.stage = .leased generationOnArrival)
    (replacement obsoleteOverlay : Bool) :
    (state.prepare index request generationOnArrival replacement obsoleteOverlay).WalksOk := by
  obtain ⟨hheld, hended⟩ := (h.requests index request hrequest).stage.leased hstage
  refine h.of_holder hrequest (.inr hheld) rfl rfl (.refl _) h.clock h.noted
    (h.lease.congr rfl rfl) rfl rfl ?_
  refine ⟨hheld, hended, ⟨_, rfl, rfl⟩, ?_⟩
  intro hcurrent
  exact h.lastWalk (startedAfter_of_alreadyCurrent hcurrent)

/-- A request that is found current rests on the walk noted last. -/
theorem WalksOk.skip (h : state.WalksOk) (hrequest : state.requests[index]? = some request)
    (hstage : request.stage = .prepared true) (watcherError : Option Str)
    (hvouched : state.Vouched (.skip index watcherError)) :
    (state.skip index request watcherError).WalksOk := by
  have hok := h.requests index request hrequest
  obtain ⟨hheld, hended, -, hcurrent⟩ := hok.stage.prepared hstage
  obtain ⟨walk, hwalk, hafter⟩ := hcurrent rfl
  obtain ⟨hnotfailed, hfilter⟩ := hvouched request walk hrequest hwalk
  have hlast : state.walks.length - 1 < state.walks.length :=
    (List.getElem?_eq_some_iff.mp hwalk).1
  have hsuccess : walk.outcome = some true := by
    have hsome := hended _ hlast walk hwalk
    cases houtcome : walk.outcome with
    | none => exact absurd houtcome hsome
    | some success =>
      cases success with
      | false => exact absurd houtcome hnotfailed
      | true => rfl
  refine h.free hrequest hheld hended rfl rfl rfl rfl rfl rfl rfl ?_
  intro message hack
  exact ⟨_, rfl, walk, hwalk, hok.walksBefore_le hwalk hafter, Nat.le_of_lt hafter, hsuccess,
    hfilter⟩

theorem WalksOk.failBefore (h : state.WalksOk)
    (hrequest : state.requests[index]? = some request)
    (hstage : (∃ generationOnArrival, request.stage = .leased generationOnArrival) ∨
      ∃ alreadyCurrent, request.stage = .prepared alreadyCurrent) (message : Str) :
    (state.release index request (blockingResponse request.watch (.error message))).WalksOk := by
  have hok := h.requests index request hrequest
  have hheld : state.lease = some (.request index) ∧ state.EndedBelow state.walks.length := by
    cases hstage with
    | inl hleased =>
      obtain ⟨generationOnArrival, hleased⟩ := hleased
      exact hok.stage.leased hleased
    | inr hprepared =>
      obtain ⟨alreadyCurrent, hprepared⟩ := hprepared
      exact ⟨(hok.stage.prepared hprepared).1, (hok.stage.prepared hprepared).2.1⟩
  refine h.free hrequest hheld.1 hheld.2 rfl rfl rfl rfl rfl rfl rfl ?_
  intro text hack
  cases hack

/-! ## Steps of the last walk -/

variable {change : IndexWalk → IndexWalk}

theorem modifyLastWalk_getElem? (number : Nat) :
    (state.modifyLastWalk change).walks[number]? =
      if state.walks.length - 1 = number then state.walks[number]?.map change
      else state.walks[number]? := by
  show (state.walks.modify _ _)[number]? = _
  rw [List.getElem?_modify]
  split
  · rfl
  · simp

theorem modifyLastWalk_length : (state.modifyLastWalk change).walks.length = state.walks.length :=
  List.length_modify ..

theorem modifyLastWalk_last :
    (state.modifyLastWalk change).walks[(state.modifyLastWalk change).walks.length - 1]? =
      state.walks[state.walks.length - 1]?.map change := by
  rw [modifyLastWalk_length, modifyLastWalk_getElem?, if_pos rfl]

theorem WalksOk.clock_modify (h : state.WalksOk)
    (hchange : ∀ walk, (change walk).started = walk.started) (number : Nat) (walk : IndexWalk)
    (hwalk : (state.modifyLastWalk change).walks[number]? = some walk) :
    walk.started ≤ state.now := by
  rw [modifyLastWalk_getElem?] at hwalk
  split at hwalk
  · obtain ⟨old, hold, rfl⟩ := Option.map_eq_some_iff.mp hwalk
    rw [hchange]
    exact h.clock number old hold
  · exact h.clock number walk hwalk

theorem WalksOk.noted_modify (h : state.WalksOk)
    (hchange : ∀ walk, (change walk).started = walk.started) (started : Nat)
    (hstarted : state.fullIndexRunStart = some started) :
    ∃ walk, (state.modifyLastWalk change).walks[
      (state.modifyLastWalk change).walks.length - 1]? = some walk ∧ walk.started = started := by
  obtain ⟨walk, hwalk, rfl⟩ := h.noted started hstarted
  refine ⟨change walk, ?_, hchange walk⟩
  rw [modifyLastWalk_last, hwalk, Option.map_some]

/-- The last walk may go on while it has not ended. -/
theorem grows_modifyLastWalk {walk : IndexWalk}
    (hwalk : state.walks[state.walks.length - 1]? = some walk) (hopen : walk.outcome = none)
    (hchange : ∀ walk, (change walk).started = walk.started) :
    Grows state.now state.walks (state.modifyLastWalk change).walks := by
  refine Grows.modify ?_ hchange
  intro other hother
  rw [hwalk] at hother
  cases hother
  rw [hopen]
  decide

theorem EndedBelow.modify (h : state.EndedBelow (state.walks.length - 1)) :
    (state.modifyLastWalk change).EndedBelow (state.walks.length - 1) := by
  intro number hlt walk hwalk
  rw [modifyLastWalk_getElem?, if_neg (by omega)] at hwalk
  exact h number hlt walk hwalk

theorem EndedBelow.endWalk (h : state.EndedBelow (state.walks.length - 1)) (success : Bool) :
    (state.endWalk success).EndedBelow (state.endWalk success).walks.length := by
  intro number hlt walk hwalk
  unfold IndexRequests.endWalk at hwalk hlt
  rw [modifyLastWalk_length] at hlt
  by_cases hlast : state.walks.length - 1 = number
  · rw [modifyLastWalk_getElem?, if_pos hlast] at hwalk
    obtain ⟨old, hold, rfl⟩ := Option.map_eq_some_iff.mp hwalk
    exact Option.some_ne_none _
  · exact h.modify number (by omega) walk hwalk

theorem EndedBelow.append (h : state.EndedBelow state.walks.length) :
    state.noteFullIndexRunStart.EndedBelow (state.noteFullIndexRunStart.walks.length - 1) := by
  have hlength : state.noteFullIndexRunStart.walks.length = state.walks.length + 1 :=
    List.length_append
  intro number hlt walk hwalk
  have hold : number < state.walks.length := by omega
  have hwalk' : (state.walks ++ _)[number]? = some walk := hwalk
  rw [List.getElem?_append_left hold] at hwalk'
  exact h number hold walk hwalk'

theorem noteFullIndexRunStart_last :
    state.noteFullIndexRunStart.walks[state.noteFullIndexRunStart.walks.length - 1]? =
      some ⟨state.now, none, none⟩ := by
  show (state.walks ++ [_])[(state.walks ++ [_]).length - 1]? = _
  rw [List.length_append, List.length_singleton, Nat.add_sub_cancel, List.getElem?_concat_length]

theorem WalksOk.clock_append (h : state.WalksOk) (number : Nat) (walk : IndexWalk)
    (hwalk : state.noteFullIndexRunStart.walks[number]? = some walk) :
    walk.started ≤ state.now := by
  cases ForStd.getElem?_concat_eq_some hwalk with
  | inl hold => exact h.clock number walk hold
  | inr hnew => rw [hnew.2]

theorem noted_append (started : Nat)
    (hstarted : state.noteFullIndexRunStart.fullIndexRunStart = some started) :
    ∃ walk, state.noteFullIndexRunStart.walks[
      state.noteFullIndexRunStart.walks.length - 1]? = some walk ∧ walk.started = started := by
  cases hstarted
  exact ⟨_, noteFullIndexRunStart_last, rfl⟩

theorem WalksOk.noteStart (h : state.WalksOk) (hrequest : state.requests[index]? = some request)
    {alreadyCurrent : Bool} (hstage : request.stage = .prepared alreadyCurrent) :
    (state.noteStart index request).WalksOk := by
  have hok := h.requests index request hrequest
  obtain ⟨hheld, hended, hfilter, -⟩ := hok.stage.prepared hstage
  refine h.of_holder hrequest (.inr hheld) rfl rfl (.append _ (Nat.le_refl _)) h.clock_append noted_append ?_
    rfl rfl ?_
  · exact .of_request hheld
  · have hlength : state.noteFullIndexRunStart.walks.length = state.walks.length + 1 :=
      List.length_append
    refine ⟨hheld, hended.append, hfilter, ⟨state.now, none, none⟩, noteFullIndexRunStart_last,
      rfl, rfl, hok.arrived, ?_, ?_⟩
    · show request.walksBefore ≤ state.noteFullIndexRunStart.walks.length - 1
      have hcounted := hok.counted
      omega
    · show some state.walks.length = some (state.noteFullIndexRunStart.walks.length - 1)
      rw [hlength, Nat.add_sub_cancel]

/-- The filter that a request's own walk reads is the one that the request has written. -/
theorem WalksOk.readFilter (h : state.WalksOk) (hrequest : state.requests[index]? = some request)
    (hstage : request.stage = .noted) :
    (state.readFilter.setStage index request .walking).WalksOk := by
  have hok := h.requests index request hrequest
  obtain ⟨hheld, hended, hfilter, filter, hwalks, -⟩ := hok.stage.walks (.inl hstage)
  obtain ⟨walk, hwalk, hopen, -, hstarted, hbefore, hnumber⟩ := hwalks
  refine h.of_holder hrequest (.inr hheld) rfl rfl (grows_modifyLastWalk hwalk hopen fun _ => rfl)
    (h.clock_modify fun _ => rfl) (h.noted_modify fun _ => rfl) ?_ rfl rfl ?_
  · exact .of_request hheld
  · obtain ⟨metadata, hmetadata, hskip⟩ := hfilter
    have hlength : (state.readFilter.setStage index request .walking).walks.length =
        state.walks.length := modifyLastWalk_length
    refine ⟨hheld, ?_, ⟨metadata, hmetadata, hskip⟩,
      { walk with skipGitignore := some (state.metadata.any (·.skipGitignore)) }, ?_, hopen, ?_,
      hstarted, ?_, ?_⟩
    · rw [hlength]
      exact hended.modify
    · exact modifyLastWalk_last.trans (by rw [hwalk]; rfl)
    · show some (state.metadata.any _) = _
      rw [hmetadata, Option.any_some, hskip]
    · rw [hlength]
      exact hbefore
    · rw [hlength]
      exact hnumber

/-- The request's own walk ends. If it succeeds, it has served the request. -/
theorem WalksOk.release (h : state.WalksOk) (hrequest : state.requests[index]? = some request)
    (hstage : request.stage = .noted ∨ request.stage = .walking) (success : Bool)
    (response : DaemonResponse)
    (hresponse : ∀ message, response = .ack message →
      success = true ∧ request.stage = .walking) :
    ((state.endWalk success).release index request response).WalksOk := by
  have hok := h.requests index request hrequest
  obtain ⟨hheld, hended, -, filter, hwalks, hfilter⟩ := hok.stage.walks hstage
  obtain ⟨walk, hwalk, hopen, hread, hstarted, hbefore, hnumber⟩ := hwalks
  refine h.of_holder hrequest (.inr hheld) rfl rfl (grows_modifyLastWalk hwalk hopen fun _ => rfl)
    (h.clock_modify fun _ => rfl) (h.noted_modify fun _ => rfl) (hended.endWalk success) rfl rfl ?_
  intro message hack
  obtain ⟨rfl, hwalking⟩ := hresponse message hack
  refine ⟨_, hnumber, { walk with outcome := some true }, ?_, hbefore, hstarted, rfl, ?_⟩
  · have hlast : (state.endWalk true).walks[(state.endWalk true).walks.length - 1]? = _ :=
      modifyLastWalk_last
    unfold IndexRequests.endWalk at hlast
    rw [modifyLastWalk_length, hwalk] at hlast
    exact hlast
  · exact hread.trans (hfilter hwalking)

/-! ## Steps of the watcher -/

theorem keeps_of_watcher {full : Bool} (hlease : state.lease = some (.watcher full))
    (hnow : next.now = state.now) (hgrows : Grows state.now state.walks next.walks) (other : Nat) :
    state.Keeps next other := by
  apply Keeps.of_free _ (Nat.le_of_eq hnow.symm) hgrows
  rw [hlease]
  intro hheld
  cases hheld

theorem LeaseOk.watching (h : state.LeaseOk) (hlease : state.lease = some (.watcher true)) :
    state.EndedBelow (state.walks.length - 1) ∧
      ∃ walk, state.walks[state.walks.length - 1]? = some walk ∧ walk.outcome = none := by
  unfold LeaseOk at h
  simpa only [hlease] using h

theorem LeaseOk.of_watching (hlease : state.lease = some (.watcher true))
    (h : state.EndedBelow (state.walks.length - 1) ∧
      ∃ walk, state.walks[state.walks.length - 1]? = some walk ∧ walk.outcome = none) :
    state.LeaseOk := by
  unfold LeaseOk
  rw [hlease]
  exact h

theorem LeaseOk.ended (h : state.LeaseOk)
    (hlease : state.lease = none ∨ state.lease = some (.watcher false)) :
    state.EndedBelow state.walks.length := by
  unfold LeaseOk at h
  cases hlease with
  | inl hfree => simpa only [hfree] using h
  | inr hwatcher => simpa only [hwatcher] using h

theorem WalksOk.watcherAcquire (h : state.WalksOk) (hfree : state.lease = none) :
    ({ state with lease := some (.watcher false) } : IndexRequests).WalksOk := by
  refine h.of_keeps rfl h.clock h.noted (h.lease.ended (.inl hfree)) ?_
  intro other
  refine .of_free ?_ (Nat.le_refl _) (.refl _)
  rw [hfree]
  intro hheld
  cases hheld

theorem WalksOk.watcherNoteStart (h : state.WalksOk)
    (hlease : state.lease = some (.watcher false)) :
    ({ state.noteFullIndexRunStart with lease := some (.watcher true) } :
      IndexRequests).WalksOk := by
  have hended := h.lease.ended (.inr hlease)
  exact h.of_keeps rfl h.clock_append noted_append
    ⟨hended.append, _, noteFullIndexRunStart_last, rfl⟩ (keeps_of_watcher hlease rfl (.append _ (Nat.le_refl _)))

theorem WalksOk.watcherReadFilter (h : state.WalksOk)
    (hlease : state.lease = some (.watcher true)) : state.readFilter.WalksOk := by
  obtain ⟨hended, walk, hwalk, hopen⟩ := h.lease.watching hlease
  refine h.of_keeps rfl (h.clock_modify fun _ => rfl) (h.noted_modify fun _ => rfl) ?_
    (keeps_of_watcher hlease rfl (grows_modifyLastWalk hwalk hopen fun _ => rfl))
  refine .of_watching hlease ⟨?_, { walk with
    skipGitignore := some (state.metadata.any (·.skipGitignore)) },
    modifyLastWalk_last.trans (by rw [hwalk]; rfl), hopen⟩
  show state.readFilter.EndedBelow ((state.modifyLastWalk _).walks.length - 1)
  rw [modifyLastWalk_length]
  exact hended.modify

theorem WalksOk.watcherFinish (h : state.WalksOk)
    (hlease : state.lease = some (.watcher true)) (success : Bool) :
    ({ state.endWalk success with lease := none } : IndexRequests).WalksOk := by
  obtain ⟨hended, walk, hwalk, hopen⟩ := h.lease.watching hlease
  exact h.of_keeps rfl (h.clock_modify fun _ => rfl) (h.noted_modify fun _ => rfl)
    (hended.endWalk success)
    (keeps_of_watcher hlease rfl (grows_modifyLastWalk hwalk hopen fun _ => rfl))

theorem WalksOk.watcherRelease (h : state.WalksOk)
    (hlease : state.lease = some (.watcher false)) :
    ({ state with lease := none } : IndexRequests).WalksOk :=
  h.of_keeps rfl h.clock h.noted (h.lease.ended (.inr hlease))
    (keeps_of_watcher hlease rfl (.refl _))

/-- A run that commits keeps the filter of the metadata. -/
theorem WalksOk.commit (h : state.WalksOk) (unix : Nat) : (state.commit unix).WalksOk := by
  refine h.of_keeps rfl h.clock h.noted (h.lease.congr rfl rfl) ?_
  intro other
  refine .of_same (Nat.le_refl _) rfl rfl ?_
  intro skipGitignore hfilter
  obtain ⟨metadata, hmetadata, hskip⟩ := hfilter
  refine ⟨_, rfl, ?_⟩
  rw [hmetadata]
  exact hskip

end IndexRequests

end Ivygrep.Native
