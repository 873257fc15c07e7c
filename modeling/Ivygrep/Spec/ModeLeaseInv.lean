import Ivygrep.Native.ModeLease

/-!
# The invariant of a mode coordinator

What one turn of a waiting loop can do, said once for each loop, and from it the
invariants: the counters are the numbers of leases and waiters, nobody is forgotten when
the last lease goes, and the reservation counts its holders.
-/

namespace Ivygrep.Native

variable {Thread : Type}

/-! ## Turns -/

/-- What a turn of `acquire_shared` can do. -/
inductive SharedTurn (state : WorkspaceModeCoordinatorState) (mode : Bool)
    (reserved : Option UInt64) : Bool → TurnResult → Prop where
  /-- A call without a reservation is cancelled. -/
  | leave (hnot : state.nextMode = some mode → reserved ≠ some state.nextModeGeneration) :
      SharedTurn state mode reserved true ⟨.cancelled, state, false⟩
  /-- A holder of the reservation is cancelled. -/
  | release (hnext : state.nextMode = some mode)
      (hreserved : reserved = some state.nextModeGeneration) :
      SharedTurn state mode reserved true ⟨.cancelled,
        { state with
          nextModeWaiters := state.nextModeWaiters - 1
          nextMode := if state.nextModeWaiters - 1 = 0 then none else some mode }, true⟩
  | start (hstart : state.canStart mode = true) :
      SharedTurn state mode reserved false
        ⟨.acquired (.shared mode), state.start mode, false⟩
  | join (hjoin : state.canJoin mode = true) (hleases : state.activeLeases ≠ 0) :
      SharedTurn state mode reserved false
        ⟨.acquired (.shared mode), { state with activeLeases := state.activeLeases + 1 }, false⟩
  | wait (hstart : state.canStart mode = false) (hjoin : state.canJoin mode = false)
      (hwait : state.exclusiveActive = true ∨ 0 < state.exclusiveWaiters ∨
        state.activeMode = some mode ∨ state.nextMode = some (!mode) ∨
          state.nextMode = some mode ∧ reserved = some state.nextModeGeneration) :
      SharedTurn state mode reserved false ⟨.parked (.shared mode reserved), state, false⟩
  | reserve (hexclusive : state.exclusiveActive = false) (hwaiters : state.exclusiveWaiters = 0)
      (hactive : state.activeMode ≠ some mode) (hnext : state.nextMode = none)
      (hleases : state.activeLeases ≠ 0) :
      SharedTurn state mode reserved false
        ⟨.parked (.shared mode (some (state.nextModeGeneration + 1))),
          { state with
            nextMode := some mode
            nextModeGeneration := state.nextModeGeneration + 1
            nextModeWaiters := 1 }, false⟩
  | joinReservation (hexclusive : state.exclusiveActive = false)
      (hwaiters : state.exclusiveWaiters = 0) (hactive : state.activeMode ≠ some mode)
      (hnext : state.nextMode = some mode) (hleases : state.activeLeases ≠ 0)
      (hreserved : reserved ≠ some state.nextModeGeneration) :
      SharedTurn state mode reserved false
        ⟨.parked (.shared mode (some state.nextModeGeneration)),
          { state with nextModeWaiters := state.nextModeWaiters + 1 }, false⟩

theorem canStart_eq_true {state : WorkspaceModeCoordinatorState} {mode : Bool} :
    state.canStart mode = true ↔ state.exclusiveActive = false ∧ state.exclusiveWaiters = 0 ∧
      state.activeLeases = 0 ∧ (state.nextMode = none ∨ state.nextMode = some mode) := by
  unfold WorkspaceModeCoordinatorState.canStart
  cases state.nextMode with
  | none => simp [and_assoc]
  | some next => simp [and_assoc]

theorem canJoin_eq_true {state : WorkspaceModeCoordinatorState} {mode : Bool} :
    state.canJoin mode = true ↔ state.exclusiveActive = false ∧ state.exclusiveWaiters = 0 ∧
      state.activeMode = some mode ∧ state.nextMode = none := by
  simp [WorkspaceModeCoordinatorState.canJoin, and_assoc]

theorem acquireSharedTurn_spec (state : WorkspaceModeCoordinatorState) (mode : Bool)
    (reserved : Option UInt64) (flag : Bool) :
    SharedTurn state mode reserved flag (state.acquireSharedTurn mode reserved flag) := by
  unfold WorkspaceModeCoordinatorState.acquireSharedTurn
  cases flag with
  | true =>
    rw [if_pos rfl]
    unfold WorkspaceModeCoordinatorState.cancelShared
    split
    · rename_i hholds
      simp only [hholds.1]
      exact .release hholds.1 hholds.2
    · rename_i hnot
      exact .leave fun hnext hreserved => hnot ⟨hnext, hreserved⟩
  | false =>
    rw [if_neg Bool.false_ne_true]
    cases hstart : state.canStart mode with
    | true => exact .start hstart
    | false =>
      cases hjoin : state.canJoin mode with
      | true =>
        refine .join hjoin ?_
        intro hleases
        obtain ⟨hexclusive, hwaiters, -, hnext⟩ := canJoin_eq_true.mp hjoin
        rw [canStart_eq_true.mpr ⟨hexclusive, hwaiters, hleases, .inl hnext⟩] at hstart
        cases hstart
      | false =>
        show SharedTurn state mode reserved false
          ⟨.parked (.shared mode (state.reserve mode reserved).2),
            (state.reserve mode reserved).1, false⟩
        unfold WorkspaceModeCoordinatorState.reserve
        split
        · rename_i hopen
          obtain ⟨hexclusive, hwaiters, hactive⟩ := hopen
          rw [Bool.not_eq_true] at hexclusive
          -- Without a lease the turn would have started the mode.
          have hleases : state.nextMode = none ∨ state.nextMode = some mode →
              state.activeLeases ≠ 0 := by
            intro hnext hzero
            rw [canStart_eq_true.mpr ⟨hexclusive, hwaiters, hzero, hnext⟩] at hstart
            cases hstart
          split
          · rename_i hnext
            exact .reserve hexclusive hwaiters hactive hnext (hleases (.inl hnext))
          · split
            · rename_i hnext
              exact .joinReservation hexclusive hwaiters hactive hnext.1 (hleases (.inr hnext.1))
                hnext.2
            · rename_i hnone hnot
              refine .wait hstart hjoin (.inr (.inr (.inr ?_)))
              cases hnext : state.nextMode with
              | none => exact absurd hnext hnone
              | some next =>
                by_cases hsame : next = mode
                · subst hsame
                  right
                  exact ⟨rfl, not_not.mp fun hne => hnot ⟨hnext, hne⟩⟩
                · left
                  rw [Bool.eq_not_of_ne hsame]
        · rename_i hopen
          refine .wait hstart hjoin ?_
          by_cases hexclusive : state.exclusiveActive = true
          · exact .inl hexclusive
          · by_cases hwaiters : state.exclusiveWaiters = 0
            · right
              right
              left
              exact not_not.mp fun hactive => hopen ⟨hexclusive, hwaiters, hactive⟩
            · exact .inr (.inl (Nat.pos_of_ne_zero hwaiters))

/-- What a turn of `acquire_exclusive` can do. -/
inductive ExclusiveTurn (state : WorkspaceModeCoordinatorState) : Bool → TurnResult → Prop where
  | leave : ExclusiveTurn state true
      ⟨.cancelled, { state with exclusiveWaiters := state.exclusiveWaiters - 1 }, true⟩
  | wait (hbusy : state.exclusiveActive = true ∨ 0 < state.activeLeases) :
      ExclusiveTurn state false ⟨.parked .exclusive, state, false⟩
  | acquire (hexclusive : state.exclusiveActive = false) (hleases : state.activeLeases = 0) :
      ExclusiveTurn state false ⟨.acquired .exclusive,
        { state with
          exclusiveWaiters := state.exclusiveWaiters - 1, exclusiveActive := true }, false⟩

theorem acquireExclusiveTurn_spec (state : WorkspaceModeCoordinatorState) (flag : Bool) :
    ExclusiveTurn state flag (state.acquireExclusiveTurn flag) := by
  unfold WorkspaceModeCoordinatorState.acquireExclusiveTurn
  cases flag with
  | true => exact .leave
  | false =>
    rw [if_neg Bool.false_ne_true]
    split
    · rename_i hbusy
      exact .wait hbusy
    · rename_i hfree
      rw [not_or, Bool.not_eq_true, Nat.not_lt, Nat.le_zero] at hfree
      exact .acquire hfree.1 hfree.2

theorem sharedTurn_spec {call : AcquireCall} {mode : Bool} {reserved : Option UInt64}
    (h : call = .shared mode reserved) (state : WorkspaceModeCoordinatorState) (flag : Bool) :
    SharedTurn state mode reserved flag (call.turn state flag) := by
  subst h
  exact acquireSharedTurn_spec state mode reserved flag

theorem exclusiveTurn_spec {call : AcquireCall} (h : call = .exclusive)
    (state : WorkspaceModeCoordinatorState) (flag : Bool) :
    ExclusiveTurn state flag (call.turn state flag) := by
  subst h
  exact acquireExclusiveTurn_spec state flag

/-! ## Waiters -/

def AcquireCall.isExclusive : AcquireCall → Bool
  | .shared .. => false
  | .exclusive => true

/-- The generation that a call has reserved. -/
def AcquireCall.reserved : AcquireCall → Option UInt64
  | .shared _ reserved => reserved
  | .exclusive => none

/-- The mode that a call waits for. -/
def AcquireCall.mode : AcquireCall → Option Bool
  | .shared mode _ => some mode
  | .exclusive => none

def LeaseKind.isExclusive : LeaseKind → Bool
  | .shared _ => false
  | .exclusive => true

/-- The call would return with a lease now. -/
def AcquireCall.canAcquire (call : AcquireCall) (state : WorkspaceModeCoordinatorState) : Prop :=
  ∃ kind, (call.turn state false).turn = .acquired kind

theorem countP_notifyWaiters (p : AcquireCall → Bool) (notifyAll : Bool)
    (waiters : List (Waiter Thread)) :
    (notifyWaiters notifyAll waiters).countP (fun waiter => p waiter.call) =
      waiters.countP fun waiter => p waiter.call := by
  unfold notifyWaiters
  split
  · rw [List.countP_map]
    rfl
  · rfl

theorem mem_notifyWaiters {notifyAll : Bool} {waiters : List (Waiter Thread)}
    {waiter : Waiter Thread} (h : waiter ∈ notifyWaiters notifyAll waiters) :
    ∃ before ∈ waiters, waiter.call = before.call ∧ waiter.thread = before.thread ∧
      (waiter.notified = false → before.notified = false ∧ notifyAll = false) := by
  unfold notifyWaiters at h
  split at h
  · rename_i hall
    obtain ⟨before, hbefore, rfl⟩ := List.mem_map.mp h
    exact ⟨before, hbefore, rfl, rfl, fun hfalse => absurd hfalse.symm Bool.false_ne_true⟩
  · rename_i hall
    exact ⟨waiter, h, rfl, rfl, fun hfalse => ⟨hfalse, Bool.not_eq_true _ ▸ hall⟩⟩

namespace WorkspaceModeCoordinator

variable {coordinator : WorkspaceModeCoordinator Thread} {rest : List (Waiter Thread)}
  {waiter : Waiter Thread} {flag : Bool} {state : WorkspaceModeCoordinatorState}
  {notifyAll : Bool}

theorem takeTurn_acquired {kind : LeaseKind}
    (h : waiter.call.turn coordinator.state flag = ⟨.acquired kind, state, notifyAll⟩) :
    coordinator.takeTurn rest waiter flag = ⟨state, notifyWaiters notifyAll rest,
      coordinator.leases ++ [⟨waiter.thread, kind⟩]⟩ := by
  simp only [takeTurn, h]

theorem takeTurn_cancelled
    (h : waiter.call.turn coordinator.state flag = ⟨.cancelled, state, notifyAll⟩) :
    coordinator.takeTurn rest waiter flag =
      ⟨state, notifyWaiters notifyAll rest, coordinator.leases⟩ := by
  simp only [takeTurn, h]

theorem takeTurn_parked {call : AcquireCall}
    (h : waiter.call.turn coordinator.state flag = ⟨.parked call, state, notifyAll⟩) :
    coordinator.takeTurn rest waiter flag = ⟨state,
      notifyWaiters notifyAll rest ++ [{ waiter with call, notified := false }],
      coordinator.leases⟩ := by
  simp only [takeTurn, h]

theorem dropLease_shared {leases : List (WorkspaceModeLease Thread)}
    {lease : WorkspaceModeLease Thread} {mode : Bool} (h : lease.kind = .shared mode) :
    coordinator.dropLease leases lease =
      ⟨{ coordinator.state with activeLeases := coordinator.state.activeLeases - 1 },
        notifyWaiters (coordinator.state.activeLeases - 1 == 0) coordinator.waiters, leases⟩ := by
  unfold dropLease WorkspaceModeCoordinatorState.dropLease
  rw [h]

theorem dropLease_exclusive {leases : List (WorkspaceModeLease Thread)}
    {lease : WorkspaceModeLease Thread} (h : lease.kind = .exclusive) :
    coordinator.dropLease leases lease =
      ⟨{ coordinator.state with exclusiveActive := false },
        notifyWaiters true coordinator.waiters, leases⟩ := by
  unfold dropLease WorkspaceModeCoordinatorState.dropLease
  rw [h]

/-- `try_acquire_shared` gives a lease exactly where a turn of `acquire_shared` would. -/
theorem tryAcquireShared_cases (coordinator : WorkspaceModeCoordinator Thread) (thread : Thread)
    (mode : Bool) :
    coordinator.tryAcquireShared thread mode = coordinator ∨
    (coordinator.state.canStart mode = true ∧ coordinator.tryAcquireShared thread mode =
      ⟨coordinator.state.start mode, coordinator.waiters,
        coordinator.leases ++ [⟨thread, .shared mode⟩]⟩) ∨
    (coordinator.state.canJoin mode = true ∧ coordinator.state.activeLeases ≠ 0 ∧
      coordinator.tryAcquireShared thread mode =
        ⟨{ coordinator.state with activeLeases := coordinator.state.activeLeases + 1 },
          coordinator.waiters, coordinator.leases ++ [⟨thread, .shared mode⟩]⟩) := by
  unfold tryAcquireShared WorkspaceModeCoordinatorState.tryAcquireShared
  by_cases hbusy : coordinator.state.exclusiveActive = true ∨ 0 < coordinator.state.exclusiveWaiters
  · rw [if_pos hbusy]
    exact .inl rfl
  · rw [if_neg hbusy]
    rw [not_or, Bool.not_eq_true, Nat.not_lt, Nat.le_zero] at hbusy
    obtain ⟨hfree, hnone⟩ := hbusy
    by_cases hstart : coordinator.state.activeLeases = 0 ∧
        coordinator.state.nextMode.all (· == mode) = true
    · rw [if_pos hstart]
      refine .inr (.inl ⟨?_, rfl⟩)
      simp [WorkspaceModeCoordinatorState.canStart, hfree, hnone, hstart]
    · rw [if_neg hstart]
      by_cases hjoin : coordinator.state.activeMode = some mode ∧ coordinator.state.nextMode = none
      · rw [if_pos hjoin]
        refine .inr (.inr ⟨canJoin_eq_true.mpr ⟨hfree, hnone, hjoin.1, hjoin.2⟩, ?_, rfl⟩)
        intro hzero
        exact hstart ⟨hzero, by simp [hjoin.2]⟩
      · rw [if_neg hjoin]
        exact .inl rfl

/-! ## The counters -/

/-- The counters of a coordinator are the numbers of its leases and waiters. -/
structure Counted (coordinator : WorkspaceModeCoordinator Thread) : Prop where
  activeLeases : coordinator.state.activeLeases =
    coordinator.leases.countP fun lease => !lease.kind.isExclusive
  exclusiveActive : coordinator.state.exclusiveActive.toNat =
    coordinator.leases.countP fun lease => lease.kind.isExclusive
  exclusion : coordinator.state.exclusiveActive = true → coordinator.state.activeLeases = 0
  modes : ∀ lease ∈ coordinator.leases, ∀ mode, lease.kind = .shared mode →
    coordinator.state.activeMode = some mode
  exclusiveWaiters : coordinator.state.exclusiveWaiters =
    coordinator.waiters.countP fun waiter => waiter.call.isExclusive
  reservation : ∀ mode, coordinator.state.nextMode = some mode →
    coordinator.state.activeMode ≠ some mode ∧ 0 < coordinator.state.nextModeWaiters

/-- Without shared leases no lease is shared. -/
theorem Counted.not_shared (h : coordinator.Counted) (hzero : coordinator.state.activeLeases = 0) :
    ∀ lease ∈ coordinator.leases, ∀ mode, lease.kind ≠ .shared mode := by
  intro lease hlease mode hkind
  have hcount := h.activeLeases
  rw [hzero] at hcount
  have hnone := List.countP_eq_zero.mp hcount.symm lease hlease
  simp [hkind, LeaseKind.isExclusive] at hnone

/-- The first lease of a mode keeps the counters. -/
theorem Counted.start {waiters : List (Waiter Thread)} {mode : Bool} (thread : Thread)
    (h : coordinator.Counted) (hstart : coordinator.state.canStart mode = true)
    (hwaiters : waiters.countP (fun waiter => waiter.call.isExclusive) =
      coordinator.waiters.countP fun waiter => waiter.call.isExclusive) :
    (⟨coordinator.state.start mode, waiters, coordinator.leases ++ [⟨thread, .shared mode⟩]⟩ :
      WorkspaceModeCoordinator Thread).Counted := by
  obtain ⟨hfree, -, hzero, -⟩ := canStart_eq_true.mp hstart
  refine ⟨?_, ?_, ?_, ?_, h.exclusiveWaiters.trans hwaiters.symm, ?_⟩
  · have hactive := h.activeLeases
    rw [hzero] at hactive
    rw [List.countP_append, ← hactive]
    rfl
  · rw [List.countP_append, ← h.exclusiveActive]
    rfl
  · intro hexclusive
    exact absurd hexclusive (by rw [Bool.not_eq_true]; exact hfree)
  · intro lease hlease other hkind
    cases List.mem_append.mp hlease with
    | inl hold => exact absurd hkind (h.not_shared hzero lease hold other)
    | inr hnew =>
      rw [List.mem_singleton.mp hnew] at hkind
      cases hkind
      rfl
  · intro next hnext
    cases hnext

/-- A further lease of the active mode keeps the counters. -/
theorem Counted.join {waiters : List (Waiter Thread)} {mode : Bool} (thread : Thread)
    (h : coordinator.Counted) (hfree : coordinator.state.exclusiveActive = false)
    (hmode : coordinator.state.activeMode = some mode)
    (hwaiters : waiters.countP (fun waiter => waiter.call.isExclusive) =
      coordinator.waiters.countP fun waiter => waiter.call.isExclusive) :
    (⟨{ coordinator.state with activeLeases := coordinator.state.activeLeases + 1 }, waiters,
      coordinator.leases ++ [⟨thread, .shared mode⟩]⟩ :
        WorkspaceModeCoordinator Thread).Counted := by
  refine ⟨?_, ?_, ?_, ?_, h.exclusiveWaiters.trans hwaiters.symm, h.reservation⟩
  · rw [List.countP_append, ← h.activeLeases]
    rfl
  · rw [List.countP_append, ← h.exclusiveActive]
    rfl
  · intro hexclusive
    exact absurd hexclusive (by rw [Bool.not_eq_true]; exact hfree)
  · intro lease hlease other hkind
    cases List.mem_append.mp hlease with
    | inl hold => exact h.modes lease hold other hkind
    | inr hnew =>
      rw [List.mem_singleton.mp hnew] at hkind
      cases hkind
      exact hmode

/-- The coordinator as a waiter finds it that takes a turn while the others are parked. -/
def withWaiter (coordinator : WorkspaceModeCoordinator Thread) (waiter : Waiter Thread)
    (rest : List (Waiter Thread)) : WorkspaceModeCoordinator Thread :=
  { coordinator with waiters := waiter :: rest }

/-- A turn of one of the waiters keeps the counters. -/
theorem Counted.takeTurn (h : (coordinator.withWaiter waiter rest).Counted) :
    (coordinator.takeTurn rest waiter flag).Counted := by
  have hcount : ∀ notifyAll, (notifyWaiters notifyAll rest).countP
      (fun waiter => waiter.call.isExclusive) = rest.countP fun waiter => waiter.call.isExclusive :=
    fun notifyAll => countP_notifyWaiters AcquireCall.isExclusive notifyAll rest
  have hwaiters : coordinator.state.exclusiveWaiters =
      (waiter :: rest).countP fun waiter => waiter.call.isExclusive := h.exclusiveWaiters
  cases hcall : waiter.call with
  | shared mode reserved =>
    have hspec := sharedTurn_spec hcall coordinator.state flag
    generalize hturn : waiter.call.turn coordinator.state flag = result at hspec
    have hsame : (waiter :: rest).countP (fun waiter => waiter.call.isExclusive) =
        rest.countP fun waiter => waiter.call.isExclusive := by
      apply List.countP_cons_of_neg
      rw [hcall]
      exact Bool.false_ne_true
    rw [hsame] at hwaiters
    -- A waiter that parks again is still no exclusive one.
    have hparked : ∀ again : Waiter Thread, again.call.isExclusive = false →
        coordinator.state.exclusiveWaiters = (notifyWaiters false rest ++ [again]).countP
          fun waiter => waiter.call.isExclusive := by
      intro again hagain
      rw [List.countP_append, hcount, ← hwaiters, List.countP_singleton, hagain]
      rfl
    cases hspec with
    | leave hnot =>
      rw [takeTurn_cancelled hturn]
      exact ⟨h.activeLeases, h.exclusiveActive, h.exclusion, h.modes,
        hwaiters.trans (hcount false).symm, h.reservation⟩
    | release hnext hreserved =>
      rw [takeTurn_cancelled hturn]
      refine ⟨h.activeLeases, h.exclusiveActive, h.exclusion, h.modes,
        hwaiters.trans (hcount true).symm, ?_⟩
      intro next hmode
      simp only at hmode ⊢
      split at hmode
      · cases hmode
      · rename_i hleft
        cases hmode
        exact ⟨(h.reservation mode hnext).1, Nat.pos_of_ne_zero hleft⟩
    | start hstart =>
      rw [takeTurn_acquired hturn]
      exact h.start waiter.thread hstart ((hcount _).trans hsame.symm)
    | join hjoin hleases =>
      rw [takeTurn_acquired hturn]
      obtain ⟨hfree, -, hmode, -⟩ := canJoin_eq_true.mp hjoin
      exact h.join waiter.thread hfree hmode ((hcount _).trans hsame.symm)
    | wait hstart hjoin hwait =>
      rw [takeTurn_parked hturn]
      exact ⟨h.activeLeases, h.exclusiveActive, h.exclusion, h.modes, hparked _ rfl,
        h.reservation⟩
    | reserve hfree hnone hmode hnext hleases =>
      rw [takeTurn_parked hturn]
      refine ⟨h.activeLeases, h.exclusiveActive, h.exclusion, h.modes, hparked _ rfl, ?_⟩
      intro next heq
      cases heq
      exact ⟨hmode, Nat.one_pos⟩
    | joinReservation hfree hnone hmode hnext hleases hreserved =>
      rw [takeTurn_parked hturn]
      refine ⟨h.activeLeases, h.exclusiveActive, h.exclusion, h.modes, hparked _ rfl, ?_⟩
      intro next heq
      exact ⟨(h.reservation next heq).1, Nat.succ_pos _⟩
  | exclusive =>
    have hspec := exclusiveTurn_spec hcall coordinator.state flag
    generalize hturn : waiter.call.turn coordinator.state flag = result at hspec
    have hmore : (waiter :: rest).countP (fun waiter => waiter.call.isExclusive) =
        (rest.countP fun waiter => waiter.call.isExclusive) + 1 := by
      apply List.countP_cons_of_pos
      rw [hcall]
      rfl
    rw [hmore] at hwaiters
    have hless : coordinator.state.exclusiveWaiters - 1 =
        rest.countP fun waiter => waiter.call.isExclusive := by
      rw [hwaiters, Nat.add_sub_cancel]
    cases hspec with
    | leave =>
      rw [takeTurn_cancelled hturn]
      exact ⟨h.activeLeases, h.exclusiveActive, h.exclusion, h.modes,
        hless.trans (hcount true).symm, h.reservation⟩
    | wait hbusy =>
      rw [takeTurn_parked hturn]
      refine ⟨h.activeLeases, h.exclusiveActive, h.exclusion, h.modes, ?_, h.reservation⟩
      rw [List.countP_append, hcount]
      exact hwaiters
    | acquire hfree hzero =>
      rw [takeTurn_acquired hturn]
      refine ⟨?_, ?_, fun _ => hzero, ?_, hless.trans (hcount false).symm, h.reservation⟩
      · rw [List.countP_append]
        exact h.activeLeases
      · have hexclusive := h.exclusiveActive
        simp only [withWaiter, hfree, Bool.toNat_false] at hexclusive
        rw [List.countP_append, ← hexclusive]
        rfl
      · intro lease hlease mode hkind
        cases List.mem_append.mp hlease with
        | inl hold => exact absurd hkind (h.not_shared hzero lease hold mode)
        | inr hnew =>
          rw [List.mem_singleton.mp hnew] at hkind
          cases hkind

/-- The counters do not depend on the order of the waiters. -/
theorem Counted.withWaiter {front back : List (Waiter Thread)} (h : coordinator.Counted)
    (hwaiters : coordinator.waiters = front ++ waiter :: back) :
    (coordinator.withWaiter waiter (front ++ back)).Counted := by
  refine ⟨h.activeLeases, h.exclusiveActive, h.exclusion, h.modes, ?_, h.reservation⟩
  have hcount := h.exclusiveWaiters
  rw [hwaiters] at hcount
  exact hcount.trans (List.perm_middle.countP_eq _)

/-- The drop of a lease keeps the counters. -/
theorem Counted.dropLease {front back : List (WorkspaceModeLease Thread)}
    {lease : WorkspaceModeLease Thread} (h : coordinator.Counted)
    (hleases : coordinator.leases = front ++ lease :: back) :
    (coordinator.dropLease (front ++ back) lease).Counted := by
  have hperm : coordinator.leases.Perm (lease :: (front ++ back)) :=
    hleases ▸ List.perm_middle
  have hmodes : ∀ other ∈ front ++ back, ∀ mode, other.kind = .shared mode →
      coordinator.state.activeMode = some mode := by
    intro other hother
    exact h.modes other (hperm.mem_iff.mpr (List.mem_cons_of_mem _ hother))
  have hactive := h.activeLeases.trans (hperm.countP_eq _)
  have hexclusive := h.exclusiveActive.trans (hperm.countP_eq _)
  cases hkind : lease.kind with
  | shared mode =>
    rw [List.countP_cons_of_pos (by simp [hkind, LeaseKind.isExclusive])] at hactive
    rw [List.countP_cons_of_neg (by simp [hkind, LeaseKind.isExclusive])] at hexclusive
    rw [dropLease_shared hkind]
    refine ⟨?_, hexclusive, ?_, hmodes,
      h.exclusiveWaiters.trans (countP_notifyWaiters AcquireCall.isExclusive _ _).symm,
      h.reservation⟩
    · show coordinator.state.activeLeases - 1 = _
      rw [hactive, Nat.add_sub_cancel]
    · intro hlive
      show coordinator.state.activeLeases - 1 = 0
      rw [h.exclusion hlive]
  | exclusive =>
    rw [List.countP_cons_of_neg (by simp [hkind, LeaseKind.isExclusive])] at hactive
    rw [List.countP_cons_of_pos (by simp [hkind, LeaseKind.isExclusive])] at hexclusive
    rw [dropLease_exclusive hkind]
    refine ⟨hactive, ?_, ?_, hmodes,
      h.exclusiveWaiters.trans
        (countP_notifyWaiters AcquireCall.isExclusive true coordinator.waiters).symm,
      h.reservation⟩
    · have hone := Bool.toNat_le coordinator.state.exclusiveActive
      show 0 = (front ++ back).countP fun lease => lease.kind.isExclusive
      omega
    · intro hlive
      cases hlive

theorem Counted.tryAcquireShared (h : coordinator.Counted) (thread : Thread) (mode : Bool) :
    (coordinator.tryAcquireShared thread mode).Counted := by
  obtain heq | ⟨hstart, heq⟩ | ⟨hjoin, -, heq⟩ := tryAcquireShared_cases coordinator thread mode
  · rw [heq]
    exact h
  · rw [heq]
    exact h.start thread hstart rfl
  · rw [heq]
    obtain ⟨hfree, -, hmode, -⟩ := canJoin_eq_true.mp hjoin
    exact h.join thread hfree hmode rfl

/-- A thread that has entered `acquire_shared` changes no counter. -/
theorem Counted.enterShared (h : coordinator.Counted) (thread : Thread) (mode cancellable : Bool) :
    (coordinator.withWaiter ⟨thread, cancellable, .shared mode none, false⟩
      coordinator.waiters).Counted :=
  ⟨h.activeLeases, h.exclusiveActive, h.exclusion, h.modes,
    h.exclusiveWaiters.trans (List.countP_cons_of_neg Bool.false_ne_true).symm, h.reservation⟩

/-- The coordinator after a thread has been counted in `acquire_exclusive`. -/
def countExclusive (coordinator : WorkspaceModeCoordinator Thread) :
    WorkspaceModeCoordinator Thread :=
  { coordinator with
    state := { coordinator.state with
      exclusiveWaiters := coordinator.state.exclusiveWaiters + 1 } }

theorem Counted.enterExclusive (h : coordinator.Counted) (thread : Thread) (cancellable : Bool) :
    (coordinator.countExclusive.withWaiter ⟨thread, cancellable, .exclusive, false⟩
      coordinator.waiters).Counted := by
  refine ⟨h.activeLeases, h.exclusiveActive, h.exclusion, h.modes, ?_, h.reservation⟩
  show coordinator.state.exclusiveWaiters + 1 = _
  rw [h.exclusiveWaiters]
  exact (List.countP_cons_of_pos rfl).symm

/-- Every step keeps the counters. -/
theorem Counted.step {event : LeaseEvent Thread} {next : WorkspaceModeCoordinator Thread}
    (h : coordinator.Counted) (hstep : LeaseStep coordinator event next) : next.Counted := by
  cases hstep with
  | acquireShared thread mode cancellable flag hflag =>
    exact (h.enterShared thread mode cancellable).takeTurn
  | acquireExclusive thread cancellable entryFlag flag hentry hflag =>
    unfold WorkspaceModeCoordinator.acquireExclusive
    split
    · exact h
    · exact (h.enterExclusive thread cancellable).takeTurn
  | tryAcquireShared thread mode => exact h.tryAcquireShared thread mode
  | wake front back waiter flag hwaiters hflag => exact (h.withWaiter hwaiters).takeTurn
  | dropLease front back lease hleases => exact h.dropLease hleases

end WorkspaceModeCoordinator

end Ivygrep.Native
