import Ivygrep.ForStd.List
import Ivygrep.Native.IndexRequest

/-!
# Walks, the lease and the requests

The invariant of index requests that concerns the walks: which of them have ended, what
the holder of the lease has established, and that the response of a request rests on a
walk that has served it.
-/

namespace Ivygrep.Native

namespace IndexRequests

variable {state next : IndexRequests} {index other : Nat} {request request' : IndexRequest}

/-! ## The invariant -/

/-- The walk `number` was noted after the request arrived, and has succeeded with the
    request's filter. -/
def ServedBy (state : IndexRequests) (request : IndexRequest) (number : Nat) : Prop :=
  ∃ walk, state.walks[number]? = some walk ∧ request.walksBefore ≤ number ∧
    request.arrivedAt ≤ walk.started ∧ walk.outcome = some true ∧
    walk.skipGitignore = some request.skipGitignore

/-- A run that reads its filter now reads this one. -/
def FilterIs (state : IndexRequests) (skipGitignore : Bool) : Prop :=
  ∃ metadata, state.metadata = some metadata ∧ metadata.skipGitignore = skipGitignore

def EndedBelow (state : IndexRequests) (bound : Nat) : Prop :=
  ∀ number < bound, ∀ walk, state.walks[number]? = some walk → walk.outcome ≠ none

/-- The last walk is the request's own, and has not ended. -/
def Walks (state : IndexRequests) (request : IndexRequest) (skipGitignore : Option Bool) : Prop :=
  ∃ walk, state.walks[state.walks.length - 1]? = some walk ∧ walk.outcome = none ∧
    walk.skipGitignore = skipGitignore ∧ request.arrivedAt ≤ walk.started ∧
    request.walksBefore ≤ state.walks.length - 1 ∧ request.walk = some (state.walks.length - 1)

/-- What a request has established by the stage that it is in. -/
def StageOk (state : IndexRequests) (index : Nat) (request : IndexRequest) : Prop :=
  match request.stage with
  | .leased _ => state.lease = some (.request index) ∧ state.EndedBelow state.walks.length
  | .prepared alreadyCurrent =>
    state.lease = some (.request index) ∧ state.EndedBelow state.walks.length ∧
      state.FilterIs request.skipGitignore ∧
      (alreadyCurrent = true → ∃ walk, state.walks[state.walks.length - 1]? = some walk ∧
        request.arrivedAt < walk.started)
  | .noted =>
    state.lease = some (.request index) ∧ state.EndedBelow (state.walks.length - 1) ∧
      state.FilterIs request.skipGitignore ∧ state.Walks request none
  | .walking =>
    state.lease = some (.request index) ∧ state.EndedBelow (state.walks.length - 1) ∧
      state.FilterIs request.skipGitignore ∧ state.Walks request (some request.skipGitignore)
  | .finished response | .published response | .answered response =>
    ∀ message, response = .ack message →
      ∃ number, request.walk = some number ∧ state.ServedBy request number
  | .reused response =>
    ∀ message, response = .ack message → ∃ number, state.ServedBy request number
  | _ => True

/-- A request with what it knows about the walks before it. -/
structure RequestOk (state : IndexRequests) (index : Nat) (request : IndexRequest) : Prop where
  arrived : request.arrivedAt ≤ state.now
  counted : request.walksBefore ≤ state.walks.length
  before : ∀ (number : Nat) (walk : IndexWalk), state.walks[number]? = some walk → number < request.walksBefore →
    walk.started ≤ request.arrivedAt
  after : ∀ (number : Nat) (walk : IndexWalk), state.walks[number]? = some walk →
    request.walksBefore ≤ number → request.arrivedAt ≤ walk.started
  stage : state.StageOk index request

/-- Without a request that holds the lease, only a full run of the watcher has a walk that
    has not ended. -/
def LeaseOk (state : IndexRequests) : Prop :=
  match state.lease with
  | none | some (.watcher false) => state.EndedBelow state.walks.length
  | some (.watcher true) =>
    state.EndedBelow (state.walks.length - 1) ∧
      ∃ walk, state.walks[state.walks.length - 1]? = some walk ∧ walk.outcome = none
  | some (.request _) => True

structure WalksOk (state : IndexRequests) : Prop where
  clock : ∀ (number : Nat) (walk : IndexWalk), state.walks[number]? = some walk → walk.started ≤ state.now
  noted : ∀ started, state.fullIndexRunStart = some started →
    ∃ walk, state.walks[state.walks.length - 1]? = some walk ∧ walk.started = started
  lease : state.LeaseOk
  requests : ∀ index request, state.requests[index]? = some request →
    state.RequestOk index request

/-- A noted start after the arrival of a request is that of a walk after its arrival. -/
theorem RequestOk.walksBefore_le (hok : state.RequestOk index request)
    {number : Nat} {walk : IndexWalk} (hwalk : state.walks[number]? = some walk)
    (hafter : request.arrivedAt < walk.started) : request.walksBefore ≤ number := by
  by_cases hbefore : number < request.walksBefore
  · have hle := hok.before number walk hwalk hbefore
    omega
  · omega

theorem WalksOk.lastWalk (h : state.WalksOk) {arrivedAt : Nat}
    (hafter : state.fullIndexRunStartedAfter arrivedAt = true) :
    ∃ walk, state.walks[state.walks.length - 1]? = some walk ∧ arrivedAt < walk.started := by
  unfold fullIndexRunStartedAfter at hafter
  cases hstart : state.fullIndexRunStart with
  | none =>
    rw [hstart] at hafter
    cases hafter
  | some started =>
    rw [hstart, Option.any_some] at hafter
    obtain ⟨walk, hwalk, rfl⟩ := h.noted started hstart
    exact ⟨walk, hwalk, of_decide_eq_true hafter⟩

/-! ## Requests that do not take the step -/

/-- Walks are only added, not before `now`, and those that have succeeded do not change. -/
structure Grows (now : Nat) (before after : List IndexWalk) : Prop where
  length : before.length ≤ after.length
  added : ∀ (number : Nat) (walk : IndexWalk), after[number]? = some walk →
    before.length ≤ number → now ≤ walk.started
  walks : ∀ (number : Nat) (walk : IndexWalk), before[number]? = some walk →
    ∃ walk', after[number]? = some walk' ∧ walk'.started = walk.started ∧
      (walk.outcome = some true → walk' = walk)

/-- A list of walks that has not become longer has no new ones. -/
theorem not_added {walks : List IndexWalk} {number length : Nat} {walk : IndexWalk}
    (hlength : walks.length = length) (hwalk : walks[number]? = some walk)
    (hle : length ≤ number) : False := by
  have hlt := (List.getElem?_eq_some_iff.mp hwalk).1
  omega

theorem Grows.refl {now : Nat} (walks : List IndexWalk) : Grows now walks walks :=
  ⟨Nat.le_refl _, fun _ _ hwalk hle => (not_added rfl hwalk hle).elim,
    fun _ walk hwalk => ⟨walk, hwalk, rfl, fun _ => rfl⟩⟩

theorem Grows.append {now : Nat} (walks : List IndexWalk) {walk : IndexWalk}
    (hnow : now ≤ walk.started) : Grows now walks (walks ++ [walk]) := by
  refine ⟨by simp, ?_, ?_⟩
  · intro number new hnew hle
    cases ForStd.getElem?_concat_eq_some hnew with
    | inl hold => exact (not_added rfl hold hle).elim
    | inr hlast =>
      rw [hlast.2]
      exact hnow
  intro number old hold
  refine ⟨old, ?_, rfl, fun _ => rfl⟩
  rw [List.getElem?_append_left (List.getElem?_eq_some_iff.mp hold).1, hold]

/-- A walk that has not succeeded may go on. -/
theorem Grows.modify {now : Nat} {walks : List IndexWalk} {number : Nat}
    {change : IndexWalk → IndexWalk}
    (hwalk : ∀ walk, walks[number]? = some walk → walk.outcome ≠ some true)
    (hchange : ∀ walk, (change walk).started = walk.started) :
    Grows now walks (walks.modify number change) := by
  refine ⟨by simp, fun _ _ hnew hle => (not_added (by simp) hnew hle).elim, ?_⟩
  intro other walk hother
  rw [List.getElem?_modify, hother]
  by_cases hsame : number = other
  · refine ⟨change walk, by simp [hsame], hchange walk, ?_⟩
    intro hsuccess
    exact absurd hsuccess (hwalk walk (hsame ▸ hother))
  · exact ⟨walk, by simp [hsame], rfl, fun _ => rfl⟩

/-- What a step leaves to a request other than its own: the walks that have succeeded, and
    all that it needs while it holds the lease. -/
structure Keeps (state next : IndexRequests) (other : Nat) : Prop where
  now : state.now ≤ next.now
  grows : Grows state.now state.walks next.walks
  held : state.lease = some (.request other) → next.lease = state.lease ∧
    next.walks = state.walks ∧
    ∀ skipGitignore, state.FilterIs skipGitignore → next.FilterIs skipGitignore

theorem Keeps.of_free (hfree : state.lease ≠ some (.request other)) (hnow : state.now ≤ next.now)
    (hgrows : Grows state.now state.walks next.walks) : state.Keeps next other :=
  ⟨hnow, hgrows, fun hheld => absurd hheld hfree⟩

theorem Keeps.of_same (hnow : state.now ≤ next.now) (hwalks : next.walks = state.walks)
    (hlease : next.lease = state.lease)
    (hfilter : ∀ skipGitignore, state.FilterIs skipGitignore → next.FilterIs skipGitignore) :
    state.Keeps next other :=
  ⟨hnow, hwalks ▸ Grows.refl _, fun _ => ⟨hlease, hwalks, hfilter⟩⟩

theorem ServedBy.keeps {number : Nat} (h : state.ServedBy request number)
    (hkeeps : state.Keeps next other) : next.ServedBy request number := by
  obtain ⟨walk, hwalk, hafter, hstarted, hsuccess, hfilter⟩ := h
  obtain ⟨walk', hwalk', -, hsame⟩ := hkeeps.grows.walks number walk hwalk
  rw [hsame hsuccess] at hwalk'
  exact ⟨walk, hwalk', hafter, hstarted, hsuccess, hfilter⟩

theorem EndedBelow.congr {bound : Nat} (h : state.EndedBelow bound)
    (hwalks : next.walks = state.walks) : next.EndedBelow bound := by
  unfold EndedBelow
  rw [hwalks]
  exact h

theorem Walks.congr {filter : Option Bool} (h : state.Walks request filter)
    (hwalks : next.walks = state.walks) : next.Walks request filter := by
  unfold Walks
  rw [hwalks]
  exact h

theorem StageOk.keeps (h : state.StageOk other request) (hkeeps : state.Keeps next other) :
    next.StageOk other request := by
  unfold StageOk at h ⊢
  cases hstage : request.stage with
  | leased generationOnArrival =>
    simp only [hstage] at h ⊢
    obtain ⟨hlease, hended⟩ := h
    obtain ⟨hheld, hwalks, -⟩ := hkeeps.held hlease
    refine ⟨hheld.trans hlease, ?_⟩
    rw [hwalks]
    exact hended.congr hwalks
  | prepared alreadyCurrent =>
    simp only [hstage] at h ⊢
    obtain ⟨hlease, hended, hfilter, hcurrent⟩ := h
    obtain ⟨hheld, hwalks, hfilters⟩ := hkeeps.held hlease
    rw [hwalks]
    exact ⟨hheld.trans hlease, hended.congr hwalks, hfilters _ hfilter, hcurrent⟩
  | noted =>
    simp only [hstage] at h ⊢
    obtain ⟨hlease, hended, hfilter, hwalk⟩ := h
    obtain ⟨hheld, hwalks, hfilters⟩ := hkeeps.held hlease
    rw [hwalks]
    exact ⟨hheld.trans hlease, hended.congr hwalks, hfilters _ hfilter, hwalk.congr hwalks⟩
  | walking =>
    simp only [hstage] at h ⊢
    obtain ⟨hlease, hended, hfilter, hwalk⟩ := h
    obtain ⟨hheld, hwalks, hfilters⟩ := hkeeps.held hlease
    rw [hwalks]
    exact ⟨hheld.trans hlease, hended.congr hwalks, hfilters _ hfilter, hwalk.congr hwalks⟩
  | finished response | published response | answered response =>
    simp only [hstage] at h ⊢
    intro message hack
    obtain ⟨number, hnumber, hserved⟩ := h message hack
    exact ⟨number, hnumber, hserved.keeps hkeeps⟩
  | reused response =>
    simp only [hstage] at h ⊢
    intro message hack
    obtain ⟨number, hserved⟩ := h message hack
    exact ⟨number, hserved.keeps hkeeps⟩
  | arrived => trivial
  | following follower => trivial
  | joined => trivial
  | registering => trivial
  | registered => trivial
  | waiting generationOnArrival => trivial
  | indexStarted => trivial

/-- A request goes on, whatever the step does to the walks. -/
theorem RequestOk.advance (h : state.RequestOk index request) (hnow : state.now ≤ next.now)
    (hgrows : Grows state.now state.walks next.walks) (harrived : request'.arrivedAt = request.arrivedAt)
    (hbefore : request'.walksBefore = request.walksBefore)
    (hstage : next.StageOk index request') : next.RequestOk index request' := by
  refine ⟨?_, ?_, ?_, ?_, hstage⟩
  · rw [harrived]
    exact h.arrived.trans hnow
  · rw [hbefore]
    exact h.counted.trans hgrows.length
  · rw [harrived, hbefore]
    intro number walk hwalk hlt
    have hlength : number < state.walks.length := Nat.lt_of_lt_of_le hlt h.counted
    obtain ⟨walk', hwalk', hstarted, -⟩ :=
      hgrows.walks number _ (List.getElem?_eq_getElem hlength)
    rw [hwalk] at hwalk'
    cases hwalk'
    rw [hstarted]
    exact h.before number _ (List.getElem?_eq_getElem hlength) hlt
  · rw [harrived, hbefore]
    intro number walk hwalk hle
    by_cases hlength : number < state.walks.length
    · obtain ⟨walk', hwalk', hstarted, -⟩ :=
        hgrows.walks number _ (List.getElem?_eq_getElem hlength)
      rw [hwalk] at hwalk'
      cases hwalk'
      rw [hstarted]
      exact h.after number _ (List.getElem?_eq_getElem hlength) hle
    · exact h.arrived.trans (hgrows.added number walk hwalk (by omega))

theorem RequestOk.keeps (h : state.RequestOk other request) (hkeeps : state.Keeps next other) :
    next.RequestOk other request :=
  h.advance hkeeps.now hkeeps.grows rfl rfl (h.stage.keeps hkeeps)

/-! ## Steps that change one request or none -/

theorem WalksOk.of_set (h : state.WalksOk)
    (hrequests : next.requests = state.requests.set index request')
    (hclock : ∀ (number : Nat) (walk : IndexWalk), next.walks[number]? = some walk →
      walk.started ≤ next.now)
    (hnoted : ∀ started, next.fullIndexRunStart = some started →
      ∃ walk, next.walks[next.walks.length - 1]? = some walk ∧ walk.started = started)
    (hlease : next.LeaseOk) (hkeeps : ∀ other, other ≠ index → state.Keeps next other)
    (hok : next.RequestOk index request') : next.WalksOk := by
  refine ⟨hclock, hnoted, hlease, ?_⟩
  intro other found hfound
  rw [hrequests] at hfound
  by_cases hsame : other = index
  · subst hsame
    rw [List.getElem?_set_self' ] at hfound
    cases hold : state.requests[other]? with
    | none =>
      rw [hold] at hfound
      cases hfound
    | some old =>
      rw [hold] at hfound
      cases hfound
      exact hok
  · rw [List.getElem?_set_ne (Ne.symm hsame)] at hfound
    exact (h.requests other found hfound).keeps (hkeeps other hsame)

theorem LeaseOk.congr (h : state.LeaseOk) (hwalks : next.walks = state.walks)
    (hlease : next.lease = state.lease) : next.LeaseOk := by
  unfold LeaseOk EndedBelow at h ⊢
  rw [hwalks, hlease]
  exact h

/-- The walks and the lease stay as they are while one request goes on. -/
theorem WalksOk.of_request (h : state.WalksOk)
    (hrequests : next.requests = state.requests.set index request')
    (hnow : next.now = state.now) (hwalks : next.walks = state.walks)
    (hstart : next.fullIndexRunStart = state.fullIndexRunStart)
    (hlease : next.lease = state.lease)
    (hfilter : ∀ skipGitignore, state.FilterIs skipGitignore → next.FilterIs skipGitignore)
    (hok : next.RequestOk index request') : next.WalksOk := by
  refine h.of_set hrequests ?_ ?_ (h.lease.congr hwalks hlease) ?_ hok
  · rw [hwalks, hnow]
    exact h.clock
  · rw [hwalks, hstart]
    exact h.noted
  · intro other hother
    exact .of_same (Nat.le_of_eq hnow.symm) hwalks hlease hfilter

/-- A step that no request takes. -/
theorem WalksOk.of_keeps (h : state.WalksOk) (hrequests : next.requests = state.requests)
    (hclock : ∀ (number : Nat) (walk : IndexWalk), next.walks[number]? = some walk →
      walk.started ≤ next.now)
    (hnoted : ∀ started, next.fullIndexRunStart = some started →
      ∃ walk, next.walks[next.walks.length - 1]? = some walk ∧ walk.started = started)
    (hlease : next.LeaseOk) (hkeeps : ∀ other, state.Keeps next other) : next.WalksOk := by
  refine ⟨hclock, hnoted, hlease, ?_⟩
  intro other found hfound
  rw [hrequests] at hfound
  exact (h.requests other found hfound).keeps (hkeeps other)

end IndexRequests

end Ivygrep.Native
