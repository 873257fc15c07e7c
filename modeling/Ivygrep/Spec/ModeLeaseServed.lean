import Ivygrep.Spec.ModeLeaseCorrect

/-!
# Waiting modes are reserved

A thread that sleeps while the other mode is leased has the next mode reserved for it, as
long as no reservation is consumed past a thread that sleeps behind it.
-/

namespace Ivygrep.Native

variable {Thread : Type}

namespace WorkspaceModeCoordinator

/-- The thread is parked for a mode, and nothing has woken it since. -/
def Asleep (coordinator : WorkspaceModeCoordinator Thread) (mode : Bool) : Prop :=
  ∃ waiter ∈ coordinator.waiters, waiter.call.mode = some mode ∧ waiter.notified = false

/-- Where a thread sleeps for a mode while the other mode is leased, and no thread has or
    wants an exclusive lease, its mode is the next one. -/
def WaitingModeReserved (coordinator : WorkspaceModeCoordinator Thread) : Prop :=
  ∀ mode, coordinator.Asleep mode →
    (∃ lease ∈ coordinator.leases, lease.kind = .shared !mode) →
      coordinator.state.exclusiveActive = false → coordinator.state.exclusiveWaiters = 0 →
        coordinator.state.nextMode = some mode

/-- The event takes the reserved mode from nothing leased, while a thread sleeps for the
    other mode. -/
def Overtakes (coordinator : WorkspaceModeCoordinator Thread) (event : LeaseEvent Thread) : Prop :=
  ∃ mode, event.asksFor = some mode ∧ coordinator.state.nextMode = some mode ∧
    coordinator.state.canStart mode = true ∧ coordinator.Asleep !mode

/-- A sleeping thread waits for the next mode, or sleeps behind the reservation of the
    other mode. -/
def Served (coordinator : WorkspaceModeCoordinator Thread) : Prop :=
  coordinator.state.exclusiveActive = false → coordinator.state.exclusiveWaiters = 0 →
    ∀ mode, coordinator.Asleep mode → coordinator.state.nextMode = some mode ∨
      coordinator.state.nextMode = some (!mode) ∧
        (coordinator.state.activeLeases = 0 ∨ coordinator.state.activeMode = some mode)

variable {coordinator : WorkspaceModeCoordinator Thread} {rest : List (Waiter Thread)}
  {waiter : Waiter Thread} {flag : Bool}

/-- With the reservation of the other mode and without a lease of it, nothing is leased. -/
theorem Served.waitingModeReserved (h : coordinator.Served) (hcounted : coordinator.Counted) :
    coordinator.WaitingModeReserved := by
  intro mode hasleep hother hfree hnone
  cases h hfree hnone mode hasleep with
  | inl hnext => exact hnext
  | inr hbehind =>
    obtain ⟨lease, hlease, hkind⟩ := hother
    have hactive := hcounted.modes lease hlease _ hkind
    cases hbehind.2 with
    | inl hzero => exact absurd hkind (hcounted.not_shared hzero lease hlease _)
    | inr hmode =>
      rw [hactive] at hmode
      exact absurd (Option.some.inj hmode) (Bool.not_ne_self mode)

/-- The coordinator with these threads parked. -/
def withWaiters (coordinator : WorkspaceModeCoordinator Thread)
    (waiters : List (Waiter Thread)) : WorkspaceModeCoordinator Thread :=
  { coordinator with waiters }

variable (coordinator) in
/-- A thread that still sleeps has not been notified. -/
theorem asleep_of_notifyWaiters {state : WorkspaceModeCoordinatorState}
    {leases : List (WorkspaceModeLease Thread)} {notifyAll mode : Bool}
    (h : (⟨state, notifyWaiters notifyAll rest, leases⟩ :
      WorkspaceModeCoordinator Thread).Asleep mode) :
    notifyAll = false ∧ (coordinator.withWaiters rest).Asleep mode := by
  obtain ⟨waiter, hwaiter, hmode, hnotified⟩ := h
  obtain ⟨before, hbefore, hcall, -, hbefore'⟩ := mem_notifyWaiters hwaiter
  obtain ⟨hsleeps, hquiet⟩ := hbefore' hnotified
  exact ⟨hquiet, before, hbefore, hcall ▸ hmode, hsleeps⟩

theorem not_asleep_of_notifyAll {state : WorkspaceModeCoordinatorState}
    {leases : List (WorkspaceModeLease Thread)} {mode : Bool} :
    ¬(⟨state, notifyWaiters true rest, leases⟩ : WorkspaceModeCoordinator Thread).Asleep mode := by
  intro hasleep
  obtain ⟨waiter, hwaiter, -, hnotified⟩ := hasleep
  rw [notified_of_notifyAll hwaiter] at hnotified
  cases hnotified

variable (coordinator) in
/-- Of the threads parked after a turn, the one that took it may sleep now. -/
theorem asleep_of_parked {state : WorkspaceModeCoordinatorState}
    {leases : List (WorkspaceModeLease Thread)} {again : Waiter Thread} {mode : Bool}
    (h : (⟨state, notifyWaiters false rest ++ [again], leases⟩ :
      WorkspaceModeCoordinator Thread).Asleep mode) :
    (coordinator.withWaiters rest).Asleep mode ∨ again.call.mode = some mode := by
  obtain ⟨waiter, hwaiter, hmode, hnotified⟩ := h
  cases List.mem_append.mp hwaiter with
  | inl hold => exact .inl ⟨waiter, hold, hmode, hnotified⟩
  | inr hnew => exact .inr (List.mem_singleton.mp hnew ▸ hmode)

/-- Nobody sleeps through the first lease of a mode: a thread of the mode could have taken
    it, and a thread of the other mode would be overtaken. -/
theorem Served.not_asleep_of_start (h : coordinator.Served) (hnotified : coordinator.Notified)
    {mode : Bool} (hstart : coordinator.state.canStart mode = true)
    (hfair : coordinator.state.nextMode = some mode → ¬coordinator.Asleep !mode) :
    ∀ other, ¬coordinator.Asleep other := by
  obtain ⟨hfree, hnone, hzero, hnext⟩ := canStart_eq_true.mp hstart
  intro other hasleep
  cases h hfree hnone other hasleep with
  | inl hreserved =>
    obtain ⟨waiter, hwaiter, hmode, hsleeps⟩ := hasleep
    have hsame : other = mode := by
      cases hnext with
      | inl hnot => rw [hreserved] at hnot; cases hnot
      | inr hsome => rw [hreserved] at hsome; exact Option.some.inj hsome
    subst hsame
    have hacquire : waiter.call.canAcquire coordinator.state := by
      cases hcall : waiter.call with
      | shared asked reserved =>
        rw [hcall] at hmode
        cases hmode
        exact canAcquire_shared.mpr (.inl hstart)
      | exclusive => exact canAcquire_exclusive.mpr ⟨hfree, hzero⟩
    rw [hnotified hzero hfree waiter hwaiter hacquire] at hsleeps
    cases hsleeps
  | inr hbehind =>
    cases hnext with
    | inl hnot =>
      rw [hbehind.1] at hnot
      cases hnot
    | inr hsome =>
      have hsame : mode = !other := Option.some.inj (hsome.symm.trans hbehind.1)
      subst hsame
      rw [Bool.not_not] at hfair
      exact hfair hsome hasleep

/-- Nobody sleeps while nothing is reserved. -/
theorem Served.not_asleep_of_none (h : coordinator.Served)
    (hfree : coordinator.state.exclusiveActive = false)
    (hnone : coordinator.state.exclusiveWaiters = 0) (hnext : coordinator.state.nextMode = none) :
    ∀ other, ¬coordinator.Asleep other := by
  intro other hasleep
  cases h hfree hnone other hasleep with
  | inl hreserved =>
    rw [hnext] at hreserved
    cases hreserved
  | inr hbehind =>
    rw [hnext] at hbehind
    cases hbehind.1

/-- A lease that is counted as active is shared, and of the active mode. -/
theorem Counted.activeMode_of_leases (h : coordinator.Counted)
    (hleases : coordinator.state.activeLeases ≠ 0) :
    ∃ mode, coordinator.state.activeMode = some mode := by
  have hpos := Nat.pos_of_ne_zero hleases
  rw [h.activeLeases] at hpos
  obtain ⟨lease, hlease, hshared⟩ := List.countP_pos_iff.mp hpos
  cases hkind : lease.kind with
  | shared mode => exact ⟨mode, h.modes lease hlease mode hkind⟩
  | exclusive =>
    rw [hkind] at hshared
    cases hshared

/-- What holds of a thread that parks because it cannot go on. -/
theorem Counted.served_of_wait (h : coordinator.Counted) {mode : Bool} {reserved : Option UInt64}
    (hfree : coordinator.state.exclusiveActive = false)
    (hnone : coordinator.state.exclusiveWaiters = 0)
    (hjoin : coordinator.state.canJoin mode = false)
    (hwait : coordinator.state.exclusiveActive = true ∨ 0 < coordinator.state.exclusiveWaiters ∨
      coordinator.state.activeMode = some mode ∨ coordinator.state.nextMode = some (!mode) ∨
        coordinator.state.nextMode = some mode ∧
          reserved = some coordinator.state.nextModeGeneration) :
    coordinator.state.nextMode = some mode ∨ coordinator.state.nextMode = some (!mode) ∧
      (coordinator.state.activeLeases = 0 ∨ coordinator.state.activeMode = some mode) := by
  obtain hactive | hpos | hmode | hother | hheld := hwait
  · rw [hfree] at hactive
    cases hactive
  · rw [hnone] at hpos
    exact absurd hpos (Nat.lt_irrefl 0)
  · cases hnext : coordinator.state.nextMode with
    | none =>
      rw [canJoin_eq_true.mpr ⟨hfree, hnone, hmode, hnext⟩] at hjoin
      cases hjoin
    | some next =>
      by_cases hsame : next = mode
      · exact .inl (congrArg some hsame)
      · rw [Bool.eq_not_of_ne hsame]
        exact .inr ⟨rfl, .inr hmode⟩
  · refine .inr ⟨hother, ?_⟩
    by_cases hleases : coordinator.state.activeLeases = 0
    · exact .inl hleases
    · obtain ⟨active, hactive⟩ := h.activeMode_of_leases hleases
      have hne := (h.reservation _ hother).1
      rw [hactive] at hne ⊢
      right
      rw [ne_eq, Option.some.injEq] at hne
      rw [Bool.eq_not_of_ne hne, Bool.not_not]
  · exact .inl hheld.1

/-- A turn that overtakes nobody keeps the sleeping threads served. -/
theorem Served.takeTurn (h : (coordinator.withWaiters rest).Served)
    (hnotified : (coordinator.withWaiters rest).Notified)
    (hcounted : (coordinator.withWaiter waiter rest).Counted)
    (hfair : ∀ mode, flag = false → waiter.call.mode = some mode →
      coordinator.state.nextMode = some mode → coordinator.state.canStart mode = true →
        ¬(coordinator.withWaiters rest).Asleep !mode) :
    (coordinator.takeTurn rest waiter flag).Served := by
  cases hcall : waiter.call with
  | shared mode reserved =>
    have hspec := sharedTurn_spec hcall coordinator.state flag
    generalize hturn : waiter.call.turn coordinator.state flag = result at hspec
    cases hspec with
    | leave hnot =>
      rw [takeTurn_cancelled hturn]
      intro hfree hnone other hasleep
      exact h hfree hnone other (asleep_of_notifyWaiters coordinator hasleep).2
    | release hnext hreserved =>
      rw [takeTurn_cancelled hturn]
      intro hfree hnone other hasleep
      exact absurd hasleep not_asleep_of_notifyAll
    | start hstart =>
      rw [takeTurn_acquired hturn]
      intro hfree hnone other hasleep
      have hbefore := (asleep_of_notifyWaiters coordinator hasleep).2
      refine absurd hbefore (h.not_asleep_of_start hnotified hstart ?_ other)
      intro hnext
      exact hfair mode rfl (by rw [hcall]; rfl) hnext hstart
    | join hjoin hleases =>
      rw [takeTurn_acquired hturn]
      obtain ⟨hfree, hnone, -, hnext⟩ := canJoin_eq_true.mp hjoin
      intro _ _ other hasleep
      have hbefore := (asleep_of_notifyWaiters coordinator hasleep).2
      exact absurd hbefore (h.not_asleep_of_none hfree hnone hnext other)
    | wait hstart hjoin hwait =>
      rw [takeTurn_parked hturn]
      intro hfree hnone other hasleep
      cases asleep_of_parked coordinator hasleep with
      | inl hold => exact h hfree hnone other hold
      | inr hagain =>
        cases hagain
        exact hcounted.served_of_wait hfree hnone hjoin hwait
    | reserve hfree hnone hmode hnext hleases =>
      rw [takeTurn_parked hturn]
      intro _ _ other hasleep
      cases asleep_of_parked coordinator hasleep with
      | inl hold => exact absurd hold (h.not_asleep_of_none hfree hnone hnext other)
      | inr hagain =>
        cases hagain
        exact .inl rfl
    | joinReservation hfree hnone hmode hnext hleases hreserved =>
      rw [takeTurn_parked hturn]
      intro _ _ other hasleep
      cases asleep_of_parked coordinator hasleep with
      | inl hold => exact h hfree hnone other hold
      | inr hagain =>
        cases hagain
        exact .inl hnext
  | exclusive =>
    have hspec := exclusiveTurn_spec hcall coordinator.state flag
    generalize hturn : waiter.call.turn coordinator.state flag = result at hspec
    cases hspec with
    | leave =>
      rw [takeTurn_cancelled hturn]
      intro hfree hnone other hasleep
      exact absurd hasleep not_asleep_of_notifyAll
    | wait hbusy =>
      rw [takeTurn_parked hturn]
      intro hfree hnone other hasleep
      cases asleep_of_parked coordinator hasleep with
      | inl hold => exact h hfree hnone other hold
      | inr hagain => cases hagain
    | acquire hfree hzero =>
      rw [takeTurn_acquired hturn]
      intro hexclusive
      cases hexclusive

/-- Every step that overtakes nobody keeps the sleeping threads served. -/
theorem Served.step {event : LeaseEvent Thread} {next : WorkspaceModeCoordinator Thread}
    (h : coordinator.Served) (hnotified : coordinator.Notified) (hcounted : coordinator.Counted)
    (hfair : ¬coordinator.Overtakes event) (hstep : LeaseStep coordinator event next) :
    next.Served := by
  cases hstep with
  | acquireShared thread mode cancellable flag hflag =>
    apply Served.takeTurn h hnotified (hcounted.enterShared thread mode cancellable)
    intro asked hasks hmode hnext hstart hasleep
    cases hmode
    subst hasks
    exact hfair ⟨mode, rfl, hnext, hstart, hasleep⟩
  | acquireExclusive thread cancellable entryFlag flag hentry hflag =>
    unfold WorkspaceModeCoordinator.acquireExclusive
    split
    · exact h
    · have hserved : (coordinator.countExclusive.withWaiters coordinator.waiters).Served :=
        fun _ hnone => absurd hnone (Nat.succ_ne_zero _)
      apply Served.takeTurn hserved hnotified.countExclusive
        (hcounted.enterExclusive thread cancellable)
      intro asked _ hmode
      cases hmode
  | tryAcquireShared thread mode =>
    obtain heq | ⟨hstart, heq⟩ | ⟨hjoin, -, heq⟩ :=
      tryAcquireShared_cases coordinator thread mode
    · rw [heq]
      exact h
    · rw [heq]
      intro _ _ other hasleep
      refine absurd hasleep (h.not_asleep_of_start hnotified hstart ?_ other)
      intro hnext hopposite
      exact hfair ⟨mode, rfl, hnext, hstart, hopposite⟩
    · rw [heq]
      obtain ⟨hfree, hnone, -, hnext⟩ := canJoin_eq_true.mp hjoin
      intro _ _ other hasleep
      exact absurd hasleep (h.not_asleep_of_none hfree hnone hnext other)
  | wake front back waiter flag hwaiters hflag =>
    have hfewer : ∀ mode, (coordinator.withWaiters (front ++ back)).Asleep mode →
        coordinator.Asleep mode := by
      intro mode hasleep
      obtain ⟨other, hother, hmode, hsleeps⟩ := hasleep
      refine ⟨other, ?_, hmode, hsleeps⟩
      rw [hwaiters]
      exact List.perm_middle.mem_iff.mpr (List.mem_cons_of_mem _ hother)
    apply Served.takeTurn
    · intro hfree hnone mode hasleep
      exact h hfree hnone mode (hfewer mode hasleep)
    · intro hzero hfree other hother
      apply hnotified hzero hfree other
      rw [hwaiters]
      exact List.perm_middle.mem_iff.mpr (List.mem_cons_of_mem _ hother)
    · exact hcounted.withWaiter hwaiters
    · intro mode hflag hmode hnext hstart hasleep
      refine hfair ⟨mode, ?_, hnext, hstart, hfewer _ hasleep⟩
      cases hcall : waiter.call with
      | shared asked reserved =>
        rw [hcall] at hmode
        cases hmode
        simp [LeaseEvent.asksFor, hcall, hflag]
      | exclusive =>
        rw [hcall] at hmode
        cases hmode
  | dropLease front back lease hleases =>
    cases hkind : lease.kind with
    | shared mode =>
      rw [dropLease_shared hkind]
      intro hfree hnone other hasleep
      obtain ⟨hlast, hbefore⟩ := asleep_of_notifyWaiters coordinator hasleep
      rw [beq_eq_false_iff_ne] at hlast
      cases h hfree hnone other hbefore with
      | inl hnext => exact .inl hnext
      | inr hbehind =>
        refine .inr ⟨hbehind.1, .inr ?_⟩
        cases hbehind.2 with
        | inl hzero => exact absurd (by rw [hzero]) hlast
        | inr hactive => exact hactive
    | exclusive =>
      rw [dropLease_exclusive hkind]
      intro hfree hnone other hasleep
      exact absurd hasleep not_asleep_of_notifyAll

end WorkspaceModeCoordinator

/-! ## Runs -/

/-- The states that a coordinator can reach while no event overtakes a sleeping thread. -/
inductive FairLeaseRun : WorkspaceModeCoordinator Thread → Prop where
  | init : FairLeaseRun .default
  | step {coordinator next : WorkspaceModeCoordinator Thread} {event : LeaseEvent Thread}
      (hrun : FairLeaseRun coordinator) (hfair : ¬coordinator.Overtakes event)
      (hstep : LeaseStep coordinator event next) : FairLeaseRun next

theorem FairLeaseRun.invariant {coordinator : WorkspaceModeCoordinator Thread}
    (h : FairLeaseRun coordinator) :
    coordinator.Counted ∧ coordinator.Notified ∧ coordinator.Served := by
  induction h with
  | init =>
    refine ⟨.default, fun _ _ _ hwaiter => absurd hwaiter List.not_mem_nil, ?_⟩
    intro _ _ mode hasleep
    exact absurd hasleep.choose_spec.1 List.not_mem_nil
  | step hrun hfair hstep ih =>
    obtain ⟨hcounted, hnotified, hserved⟩ := ih
    exact ⟨hcounted.step hstep, hnotified.step hstep, hserved.step hnotified hcounted hfair hstep⟩

/-- A lease of one mode, and a thread that waits for the other one. -/
private def besideLease : WorkspaceModeCoordinator Nat where
  state := ⟨some false, 1, some true, 1, 1, false, 0⟩
  waiters := [⟨1, false, .shared true (some 1), false⟩]
  leases := [⟨0, .shared false⟩]

end Ivygrep.Native
