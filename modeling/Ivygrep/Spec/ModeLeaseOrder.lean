import Ivygrep.Spec.ModeLeaseCorrect

/-!
# Leases of several workspaces

Threads that take their leases in the order of the workspace ids never wait for each other
in a circle: the invariant, and from it and `NoLostWakeup` that some thread can go on.
-/

namespace Ivygrep.Native

variable {Thread Id : Type} [LinearOrder Id]

/-! ## Runs -/

/-- The thread is parked at the coordinator. -/
def WorkspaceModeCoordinator.Waits (coordinator : WorkspaceModeCoordinator Thread)
    (thread : Thread) : Prop :=
  thread ∈ coordinator.waiters.map Waiter.thread

/-- The thread has a live lease of the coordinator. -/
def WorkspaceModeCoordinator.Holds (coordinator : WorkspaceModeCoordinator Thread)
    (thread : Thread) : Prop :=
  ∃ lease ∈ coordinator.leases, lease.holder = thread

/-- How `acquire_workspace_leases` takes leases: its workspace ids are different and
    sorted, so a thread that waits for a lease holds only leases of smaller ids. -/
def LeaseEvent.Ordered (event : LeaseEvent Thread)
    (world : Id → WorkspaceModeCoordinator Thread) (id : Id) : Prop :=
  match event with
  | .acquireShared thread .. | .acquireExclusive thread .. =>
    (∀ other, ¬(world other).Waits thread) ∧ ∀ other, (world other).Holds thread → other < id
  | .tryAcquireShared thread _ => ∀ other, ¬(world other).Waits thread
  | .wake .. | .dropLease _ => True

/-- The states that the coordinators of all workspaces can reach, with the numbers of
    reservations. -/
inductive WorkspaceRun : (Id → Nat) → (Id → WorkspaceModeCoordinator Thread) → Prop where
  | init : WorkspaceRun (fun _ => 0) fun _ => .default
  | step {reservations : Id → Nat} {world : Id → WorkspaceModeCoordinator Thread} {id : Id}
      {event : LeaseEvent Thread} {next : WorkspaceModeCoordinator Thread}
      (hrun : WorkspaceRun reservations world) (hstep : LeaseStep (world id) event next)
      (hordered : event.Ordered world id) :
      WorkspaceRun
        (Function.update reservations id ((world id).reservationsAfter (reservations id) next))
        (Function.update world id next)

/-- Each coordinator makes a run of its own. -/
theorem WorkspaceRun.leaseRun {reservations : Id → Nat}
    {world : Id → WorkspaceModeCoordinator Thread} (h : WorkspaceRun reservations world) (id : Id) :
    LeaseRun (reservations id) (world id) := by
  induction h with
  | init => exact .init
  | @step reservations world other event next hrun hstep hordered ih =>
    by_cases hsame : id = other
    · subst hsame
      rw [Function.update_self, Function.update_self]
      exact ih.step hstep
    · rw [Function.update_of_ne hsame, Function.update_of_ne hsame]
      exact ih

/-! ## The order of waiting -/

/-- A thread waits at most once, and above all leases that it holds. -/
structure LeaseOrder (world : Id → WorkspaceModeCoordinator Thread) : Prop where
  nodup : ∀ id, ((world id).waiters.map Waiter.thread).Nodup
  unique : ∀ thread left right, (world left).Waits thread → (world right).Waits thread →
    left = right
  above : ∀ thread id other, (world id).Waits thread → (world other).Holds thread → other < id

variable {world : Id → WorkspaceModeCoordinator Thread} {id : Id}
  {next : WorkspaceModeCoordinator Thread} {thread : Thread}

/-- A step that parks nobody, and gives leases only to threads that wait nowhere. -/
theorem LeaseOrder.update_of_not_parked (h : LeaseOrder world)
    (hwaiters : (next.waiters.map Waiter.thread).Sublist
      ((world id).waiters.map Waiter.thread))
    (hleases : ∀ other, next.Holds other → (world id).Holds other ∨
      ¬next.Waits other ∧ ∀ elsewhere ≠ id, ¬(world elsewhere).Waits other) :
    LeaseOrder (Function.update world id next) := by
  have hwaits : ∀ other thread, (Function.update world id next other).Waits thread →
      (world other).Waits thread := by
    intro other thread hwaits
    by_cases hsame : other = id
    · subst hsame
      rw [Function.update_self] at hwaits
      exact hwaiters.subset hwaits
    · rwa [Function.update_of_ne hsame] at hwaits
  refine ⟨?_, ?_, ?_⟩
  · intro other
    by_cases hsame : other = id
    · subst hsame
      rw [Function.update_self]
      exact (h.nodup other).sublist hwaiters
    · rw [Function.update_of_ne hsame]
      exact h.nodup other
  · intro other left right hleft hright
    exact h.unique other left right (hwaits _ _ hleft) (hwaits _ _ hright)
  · intro waiting left right hleft hright
    have hheld : (world right).Holds waiting := by
      by_cases hsame : right = id
      · subst hsame
        rw [Function.update_self] at hright
        cases hleases waiting hright with
        | inl hold => exact hold
        | inr hfree =>
          by_cases hhere : left = right
          · subst hhere
            rw [Function.update_self] at hleft
            exact absurd hleft hfree.1
          · rw [Function.update_of_ne hhere] at hleft
            exact absurd hleft (hfree.2 left hhere)
      · rwa [Function.update_of_ne hsame] at hright
    exact h.above waiting left right (hwaits _ _ hleft) hheld

/-- A step that parks the thread above all its leases keeps the order. -/
theorem LeaseOrder.update_of_parked (h : LeaseOrder world) {rest : List Thread}
    (hwaiters : next.waiters.map Waiter.thread = rest ++ [thread])
    (hrest : rest.Sublist ((world id).waiters.map Waiter.thread)) (hfresh : thread ∉ rest)
    (hleases : next.leases = (world id).leases)
    (hother : ∀ other ≠ id, ¬(world other).Waits thread)
    (habove : ∀ other, (world other).Holds thread → other < id) :
    LeaseOrder (Function.update world id next) := by
  have hholds : ∀ other waiting, (Function.update world id next other).Holds waiting →
      (world other).Holds waiting := by
    intro other waiting hholds
    by_cases hsame : other = id
    · subst hsame
      rw [Function.update_self] at hholds
      unfold WorkspaceModeCoordinator.Holds at hholds
      rwa [hleases] at hholds
    · rwa [Function.update_of_ne hsame] at hholds
  -- Another thread waits where it waited before.
  have hwaits : ∀ other waiting, (Function.update world id next other).Waits waiting →
      waiting = thread ∧ other = id ∨ waiting ≠ thread ∧ (world other).Waits waiting := by
    intro other waiting hwaits
    by_cases hsame : other = id
    · subst hsame
      rw [Function.update_self] at hwaits
      unfold WorkspaceModeCoordinator.Waits at hwaits
      rw [hwaiters, List.mem_append, List.mem_singleton] at hwaits
      cases hwaits with
      | inl hold => exact .inr ⟨fun heq => hfresh (heq ▸ hold), hrest.subset hold⟩
      | inr heq => exact .inl ⟨heq, rfl⟩
    · rw [Function.update_of_ne hsame] at hwaits
      exact .inr ⟨fun heq => hother other hsame (heq ▸ hwaits), hwaits⟩
  refine ⟨?_, ?_, ?_⟩
  · intro other
    by_cases hsame : other = id
    · subst hsame
      rw [Function.update_self, hwaiters]
      apply List.nodup_append.mpr
      refine ⟨(h.nodup other).sublist hrest, List.nodup_singleton _, ?_⟩
      intro left hleft right hright heq
      rw [List.mem_singleton.mp hright] at heq
      exact hfresh (heq ▸ hleft)
    · rw [Function.update_of_ne hsame]
      exact h.nodup other
  · intro waiting left right hleft hright
    cases hwaits left waiting hleft with
    | inl hparked =>
      cases hwaits right waiting hright with
      | inl hparked' => rw [hparked.2, hparked'.2]
      | inr hold => exact absurd hparked.1 hold.1
    | inr hold =>
      cases hwaits right waiting hright with
      | inl hparked => exact absurd hparked.1 hold.1
      | inr hold' => exact h.unique waiting left right hold.2 hold'.2
  · intro waiting left right hleft hright
    have hheld := hholds right waiting hright
    cases hwaits left waiting hleft with
    | inl hparked =>
      rw [hparked.2]
      exact habove right (hparked.1 ▸ hheld)
    | inr hold => exact h.above waiting left right hold.2 hheld

/-! ## Steps -/

theorem notifyWaiters_threads (notifyAll : Bool) (waiters : List (Waiter Thread)) :
    (notifyWaiters notifyAll waiters).map Waiter.thread = waiters.map Waiter.thread := by
  unfold notifyWaiters
  split
  · rw [List.map_map]
    rfl
  · rfl

/-- After its turn a thread is parked again, or it waits no more and may have a lease. -/
theorem takeTurn_threads (coordinator : WorkspaceModeCoordinator Thread)
    (rest : List (Waiter Thread)) (waiter : Waiter Thread) (flag : Bool) :
    ((coordinator.takeTurn rest waiter flag).waiters.map Waiter.thread =
        rest.map Waiter.thread ++ [waiter.thread] ∧
      (coordinator.takeTurn rest waiter flag).leases = coordinator.leases) ∨
    ((coordinator.takeTurn rest waiter flag).waiters.map Waiter.thread = rest.map Waiter.thread ∧
      ∀ other, (coordinator.takeTurn rest waiter flag).Holds other →
        coordinator.Holds other ∨ other = waiter.thread) := by
  generalize hturn : waiter.call.turn coordinator.state flag = result
  obtain ⟨turn, state, notifyAll⟩ := result
  cases turn with
  | acquired kind =>
    right
    rw [WorkspaceModeCoordinator.takeTurn_acquired hturn]
    refine ⟨notifyWaiters_threads _ _, ?_⟩
    intro other hholds
    obtain ⟨lease, hlease, hholder⟩ := hholds
    cases List.mem_append.mp hlease with
    | inl hold => exact .inl ⟨lease, hold, hholder⟩
    | inr hnew =>
      rw [List.mem_singleton.mp hnew] at hholder
      exact .inr hholder.symm
  | cancelled =>
    right
    rw [WorkspaceModeCoordinator.takeTurn_cancelled hturn]
    exact ⟨notifyWaiters_threads _ _, fun other hholds => .inl hholds⟩
  | parked call =>
    left
    rw [WorkspaceModeCoordinator.takeTurn_parked hturn]
    refine ⟨?_, rfl⟩
    rw [List.map_append, notifyWaiters_threads]
    rfl

/-- The turn of a thread that waits nowhere else and above its leases keeps the order. -/
theorem LeaseOrder.takeTurn {coordinator : WorkspaceModeCoordinator Thread}
    {rest : List (Waiter Thread)} {waiter : Waiter Thread} {flag : Bool} (h : LeaseOrder world)
    (hleases : coordinator.leases = (world id).leases)
    (hrest : (rest.map Waiter.thread).Sublist ((world id).waiters.map Waiter.thread))
    (hfresh : waiter.thread ∉ rest.map Waiter.thread)
    (hother : ∀ other ≠ id, ¬(world other).Waits waiter.thread)
    (habove : ∀ other, (world other).Holds waiter.thread → other < id) :
    LeaseOrder (Function.update world id (coordinator.takeTurn rest waiter flag)) := by
  cases takeTurn_threads coordinator rest waiter flag with
  | inl hparked =>
    exact h.update_of_parked hparked.1 hrest hfresh (hparked.2.trans hleases) hother habove
  | inr hdone =>
    apply h.update_of_not_parked
    · rw [hdone.1]
      exact hrest
    · intro other hholds
      cases hdone.2 other hholds with
      | inl hold =>
        left
        unfold WorkspaceModeCoordinator.Holds at hold
        rwa [hleases] at hold
      | inr heq =>
        right
        rw [heq]
        refine ⟨?_, hother⟩
        unfold WorkspaceModeCoordinator.Waits
        rw [hdone.1]
        exact hfresh

/-- Every step that keeps to the order of the workspaces keeps the order of waiting. -/
theorem LeaseOrder.step {event : LeaseEvent Thread} (h : LeaseOrder world)
    (hstep : LeaseStep (world id) event next) (hordered : event.Ordered world id) :
    LeaseOrder (Function.update world id next) := by
  generalize hcoordinator : world id = coordinator at hstep
  cases hstep with
  | acquireShared thread mode cancellable flag hflag =>
    subst hcoordinator
    exact h.takeTurn rfl (List.Sublist.refl _) (hordered.1 id) (fun other _ => hordered.1 other)
      hordered.2
  | acquireExclusive thread cancellable entryFlag flag hentry hflag =>
    subst hcoordinator
    cases entryFlag with
    | true =>
      show LeaseOrder (Function.update world id (world id))
      rw [Function.update_eq_self]
      exact h
    | false =>
      exact h.takeTurn rfl (List.Sublist.refl _) (hordered.1 id) (fun other _ => hordered.1 other)
        hordered.2
  | tryAcquireShared thread mode =>
    subst hcoordinator
    have hgranted : ∀ state, LeaseOrder (Function.update world id ⟨state, (world id).waiters,
        (world id).leases ++ [⟨thread, .shared mode⟩]⟩) := by
      intro state
      refine h.update_of_not_parked (List.Sublist.refl _) ?_
      intro other hholds
      obtain ⟨lease, hlease, hholder⟩ := hholds
      cases List.mem_append.mp hlease with
      | inl hold => exact .inl ⟨lease, hold, hholder⟩
      | inr hnew =>
        rw [List.mem_singleton.mp hnew] at hholder
        subst hholder
        exact .inr ⟨hordered id, fun elsewhere _ => hordered elsewhere⟩
    obtain heq | ⟨-, heq⟩ | ⟨-, -, heq⟩ :=
      WorkspaceModeCoordinator.tryAcquireShared_cases (world id) thread mode
    · rw [heq, Function.update_eq_self]
      exact h
    · rw [heq]
      exact hgranted _
    · rw [heq]
      exact hgranted _
  | wake front back waiter flag hwaiters hflag =>
    subst hcoordinator
    have hnodup := h.nodup id
    rw [hwaiters, List.map_append, List.map_cons] at hnodup
    have hwaits : (world id).Waits waiter.thread := by
      unfold WorkspaceModeCoordinator.Waits
      rw [hwaiters]
      simp
    refine h.takeTurn rfl ?_ ?_ ?_ ?_
    · rw [hwaiters, List.map_append, List.map_append, List.map_cons]
      exact (List.Sublist.refl _).append (List.sublist_cons_self _ _)
    · rw [List.map_append]
      exact (List.nodup_middle.mp hnodup).notMem
    · intro other hne hother
      exact hne (h.unique _ _ _ hother hwaits)
    · intro other hholds
      exact h.above _ _ _ hwaits hholds
  | dropLease front back lease hleases =>
    subst hcoordinator
    have hleft : ∀ state notifyAll, LeaseOrder (Function.update world id
        ⟨state, notifyWaiters notifyAll (world id).waiters, front ++ back⟩) := by
      intro state notifyAll
      apply h.update_of_not_parked
      · rw [notifyWaiters_threads]
      · intro other hholds
        obtain ⟨held, hheld, hholder⟩ := hholds
        refine .inl ⟨held, ?_, hholder⟩
        rw [hleases]
        exact List.perm_middle.mem_iff.mpr (List.mem_cons_of_mem _ hheld)
    cases hkind : lease.kind with
    | shared mode =>
      rw [WorkspaceModeCoordinator.dropLease_shared hkind]
      exact hleft _ _
    | exclusive =>
      rw [WorkspaceModeCoordinator.dropLease_exclusive hkind]
      exact hleft _ _

theorem WorkspaceRun.order {reservations : Id → Nat} (h : WorkspaceRun reservations world) :
    LeaseOrder world := by
  induction h with
  | init =>
    refine ⟨fun _ => List.nodup_nil, ?_, ?_⟩
    · intro thread left right hleft
      exact absurd hleft List.not_mem_nil
    · intro thread id other hwaits
      exact absurd hwaits List.not_mem_nil
  | step hrun hstep hordered ih => exact ih.step hstep hordered

/-- Threads wait at finitely many coordinators. -/
theorem WorkspaceRun.finite {reservations : Id → Nat} (h : WorkspaceRun reservations world) :
    {id | (world id).waiters ≠ []}.Finite := by
  induction h with
  | init => simp [WorkspaceModeCoordinator.default]
  | @step reservations world id event next hrun hstep hordered ih =>
    apply (ih.insert id).subset
    intro other hother
    by_cases hsame : other = id
    · exact .inl hsame
    · right
      have hwaiters : (Function.update world id next other).waiters ≠ [] := hother
      rwa [Function.update_of_ne hsame] at hwaiters

/-! ## No deadlock -/

/-- Some thread can go on: a notified waiter that gets its lease, or the holder of a lease
    that waits for nothing. -/
def CanGoOn (world : Id → WorkspaceModeCoordinator Thread) : Prop :=
  ∃ id, (∃ waiter ∈ (world id).waiters,
      waiter.call.canAcquire (world id).state ∧ waiter.notified = true) ∨
    ∃ lease ∈ (world id).leases, ∀ other, ¬(world other).Waits lease.holder

/-- While threads wait, some thread can go on: look at the greatest workspace id that a
    thread waits for. -/
theorem WorkspaceRun.canGoOn {reservations : Id → Nat} (h : WorkspaceRun reservations world)
    (hlt : ∀ id, reservations id < 2 ^ 64) (hwaiting : ∃ id, (world id).waiters ≠ []) :
    CanGoOn world := by
  obtain ⟨id, hid, hmax⟩ := Set.exists_max_image _ (fun id => id) h.finite hwaiting
  refine ⟨id, ?_⟩
  by_cases hleases : (world id).leases = []
  · left
    have hrun := h.leaseRun id
    exact hrun.notified.noLostWakeup hrun.counted ((hrun.reserved (hlt id)).held hrun.counted)
      hleases hid
  · right
    obtain ⟨lease, hlease⟩ := List.exists_mem_of_ne_nil _ hleases
    refine ⟨lease, hlease, ?_⟩
    intro other hwaits
    have habove := h.order.above lease.holder other id hwaits ⟨lease, hlease, rfl⟩
    have hwaiters : (world other).waiters ≠ [] := by
      intro hnil
      unfold WorkspaceModeCoordinator.Waits at hwaits
      rw [hnil] at hwaits
      exact absurd hwaits List.not_mem_nil
    exact absurd habove (not_lt_of_ge (hmax other hwaiters))


variable (Thread Id) in
/-- For every interleaving the leases are safe, a reservation is held and counted, and no
    wake-up is lost, as long as the generation of the reservations has not wrapped around;
    and threads that take their leases in the order of the workspaces do not deadlock. -/
theorem modeLeases_correct :
    (∀ reservations (coordinator : WorkspaceModeCoordinator Thread),
      LeaseRun reservations coordinator → reservations < 2 ^ 64 →
        coordinator.Safe ∧ coordinator.NoUnderflow ∧ coordinator.ReservationHeld ∧
          coordinator.NoLostWakeup) ∧
    ∀ reservations (world : Id → WorkspaceModeCoordinator Thread),
      WorkspaceRun reservations world → (∀ id, reservations id < 2 ^ 64) →
        (∃ id, (world id).waiters ≠ []) → CanGoOn world := by
  refine ⟨?_, ?_⟩
  · intro reservations coordinator hrun hlt
    have hheld := (hrun.reserved hlt).held hrun.counted
    exact ⟨hrun.counted.safe, hrun.counted.noUnderflow, hheld,
      hrun.notified.noLostWakeup hrun.counted hheld⟩
  · intro reservations world hrun hlt hwaiting
    exact hrun.canGoOn hlt hwaiting

/-! ## Sample runs -/

/-- A thread has a lease. -/
private def leasedCoordinator : WorkspaceModeCoordinator Nat where
  state := ⟨some false, 1, none, 0, 0, false, 0⟩
  waiters := []
  leases := [⟨0, .shared false⟩]

/-- A thread has a lease of one mode, and another one waits for the other mode. -/
private def waitingCoordinator : WorkspaceModeCoordinator Nat where
  state := ⟨some false, 1, some true, 1, 1, false, 0⟩
  waiters := [⟨1, false, .shared true (some 1), false⟩]
  leases := [⟨0, .shared false⟩]

private theorem leased_step : LeaseStep .default (.acquireShared 0 false false false)
    leasedCoordinator :=
  .acquireShared .default 0 false false false Bool.false_ne_true.elim

private theorem waiting_step : LeaseStep leasedCoordinator (.acquireShared 1 true false false)
    waitingCoordinator :=
  .acquireShared leasedCoordinator 1 true false false Bool.false_ne_true.elim

private def leasedWorld : Nat → WorkspaceModeCoordinator Nat :=
  Function.update (fun _ => .default) 0 leasedCoordinator

private theorem leasedWorld_run :
    WorkspaceRun (Function.update (fun _ : Nat => 0) 0 0) leasedWorld := by
  apply WorkspaceRun.init.step leased_step
  refine ⟨fun other => List.not_mem_nil, ?_⟩
  intro other hholds
  obtain ⟨lease, hlease, -⟩ := hholds
  exact absurd hlease List.not_mem_nil

private theorem waitingWorld_run : ∃ reservations,
    WorkspaceRun reservations (Function.update leasedWorld 0 waitingCoordinator) ∧
      ∀ id, reservations id < 2 ^ 64 := by
  have hstep : LeaseStep (leasedWorld 0) (.acquireShared 1 true false false)
      waitingCoordinator := waiting_step
  have hordered : (LeaseEvent.acquireShared 1 true false false).Ordered leasedWorld 0 := by
    refine ⟨?_, ?_⟩
    · intro other
      by_cases hsame : other = 0
      · subst hsame
        exact List.not_mem_nil
      · unfold leasedWorld
        rw [Function.update_of_ne hsame]
        exact List.not_mem_nil
    · intro other hholds
      by_cases hsame : other = 0
      · subst hsame
        obtain ⟨lease, hlease, hholder⟩ := hholds
        rw [List.mem_singleton.mp hlease] at hholder
        cases hholder
      · unfold leasedWorld at hholds
        rw [Function.update_of_ne hsame] at hholds
        obtain ⟨lease, hlease, -⟩ := hholds
        exact absurd hlease List.not_mem_nil
  refine ⟨_, leasedWorld_run.step hstep hordered, ?_⟩
  intro id
  by_cases hsame : id = 0
  · subst hsame
    rw [Function.update_self]
    decide
  · rw [Function.update_of_ne hsame, Function.update_of_ne hsame]
    decide

/-- While the thread waits its reservation is counted, and the other thread can go on. -/
theorem modeLeases_correct_sample :
    (waitingCoordinator.Safe ∧ waitingCoordinator.NoUnderflow ∧
      waitingCoordinator.ReservationHeld ∧ waitingCoordinator.NoLostWakeup) ∧
    CanGoOn (Function.update leasedWorld 0 waitingCoordinator) := by
  have hcorrect := modeLeases_correct Nat Nat
  refine ⟨hcorrect.1 1 waitingCoordinator ?_ (by decide), ?_⟩
  · exact (LeaseRun.init.step leased_step).step waiting_step
  · obtain ⟨reservations, hrun, hlt⟩ := waitingWorld_run
    apply hcorrect.2 _ _ hrun hlt
    refine ⟨0, ?_⟩
    rw [Function.update_self]
    exact List.cons_ne_nil _ _

/-- Nothing is leased, and a thread sleeps with a reservation of generation 1 that another
    thread of its mode has used up. -/
private def sleeperAt (generation : UInt64) : WorkspaceModeCoordinator Nat where
  state := ⟨some true, 0, none, generation, 0, false, 0⟩
  waiters := [⟨1, false, .shared true (some 1), true⟩]
  leases := []

private theorem sleeperAt_one : ∃ reservations, LeaseRun reservations (sleeperAt 1) := by
  have hwaiting := (LeaseRun.init.step leased_step).step waiting_step
  have hdropped := hwaiting.step (.dropLease _ [] [] ⟨0, .shared false⟩ rfl)
  have htaken := hdropped.step (.tryAcquireShared _ 2 true)
  exact ⟨_, htaken.step (.dropLease _ [] [] ⟨2, .shared true⟩ rfl)⟩

/-- Another thread of the sleeper's mode reserves while the other mode is leased. -/
private def reservedAt (generation : UInt64) : WorkspaceModeCoordinator Nat where
  state := ⟨some false, 1, some true, generation, 1, false, 0⟩
  waiters := [⟨1, false, .shared true (some 1), true⟩,
    ⟨3, false, .shared true (some generation), false⟩]
  leases := [⟨0, .shared false⟩]

private theorem reservedAt_succ {generation : UInt64}
    (h : ∃ reservations, LeaseRun reservations (sleeperAt generation)) :
    ∃ reservations, LeaseRun reservations (reservedAt (generation + 1)) := by
  obtain ⟨reservations, hrun⟩ := h
  have hleased := hrun.step (.tryAcquireShared _ 0 false)
  exact ⟨_, hleased.step (.acquireShared _ 3 true false false Bool.false_ne_true.elim)⟩

private theorem sleeperAt_succ {generation : UInt64}
    (h : ∃ reservations, LeaseRun reservations (sleeperAt generation)) :
    ∃ reservations, LeaseRun reservations (sleeperAt (generation + 1)) := by
  obtain ⟨reservations, hrun⟩ := reservedAt_succ h
  have hdropped := hrun.step (.dropLease _ [] [] ⟨0, .shared false⟩ rfl)
  have hwoken := hdropped.step (.wake _ [⟨1, false, .shared true (some 1), true⟩] []
    ⟨3, false, .shared true (some (generation + 1)), true⟩ false rfl Bool.false_ne_true.elim)
  exact ⟨_, hwoken.step (.dropLease _ [] [] ⟨3, .shared true⟩ rfl)⟩

/-- While the sleeper sleeps the generation takes every value. -/
private theorem sleeperAt_all (rounds : Nat) :
    ∃ reservations, LeaseRun reservations (sleeperAt (UInt64.ofNat (rounds + 1))) := by
  induction rounds with
  | zero => exact sleeperAt_one
  | succ rounds ih =>
    rw [UInt64.ofNat_add]
    exact sleeperAt_succ ih

/-- After 2^64 reservations the generation of a thread that has slept since the first one
    is the current one again: the reservation counts one of two threads. -/
theorem reservation_generation_wraps :
    ∃ reservations, ∃ coordinator : WorkspaceModeCoordinator Nat,
      LeaseRun reservations coordinator ∧
      coordinator.state.nextMode = some true ∧ coordinator.state.nextModeWaiters = 1 ∧
      (coordinator.waiters.countP fun waiter =>
        waiter.call = .shared true (some coordinator.state.nextModeGeneration)) = 2 := by
  obtain ⟨reservations, hrun⟩ := reservedAt_succ (sleeperAt_all (2 ^ 64 - 1))
  refine ⟨reservations, _, hrun, rfl, rfl, ?_⟩
  decide +kernel

end Ivygrep.Native
