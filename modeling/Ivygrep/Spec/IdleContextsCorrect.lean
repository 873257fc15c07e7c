import Ivygrep.ForStd.List
import Ivygrep.Native.IdleContexts

/-!
# Idle search contexts are accounted for

Each counter is the sum of what the pools and the operations have a share in. A pool gives its share
back when it is dropped, before its contexts are freed.

## Key results

- `Accounted.setPool`, `Accounted.setTake`: one step of one pool or one operation
- `idleContexts_accounted`: every run
- `dropped_pool_below`: the counter while a pool is dropped
-/

namespace Ivygrep.Native.SearchContexts

open ForStd Relation

variable {contexts next : SearchContexts}

/-! ## The shares -/

/-- What a pool has a share of in the count. -/
def poolCount (pool : SearchContextPool) : Nat :=
  match pool.stage with
  | .unlocked => pool.idle.length
  | .retaining _ .push => pool.idle.length + 1
  | .retaining _ _ => pool.idle.length
  | .dropCount retained => retained
  | .dropSum | .dropBytes _ | .dropFields | .dropped => 0

/-- What a pool has a share of in the bytes. -/
def poolBytes (pool : SearchContextPool) : Nat :=
  match pool.stage with
  | .unlocked | .retaining _ .loadBytes | .retaining _ (.updateBytes _) => pool.idle.sum
  | .retaining bytes _ => pool.idle.sum + bytes
  | .dropCount _ | .dropSum => pool.idle.sum
  | .dropBytes bytes => bytes
  | .dropFields | .dropped => 0

def takenCount (taken : TakenContext) : Nat := if taken.stage = .count then 1 else 0

def takenBytes (taken : TakenContext) : Nat := if taken.stage = .done then 0 else taken.bytes

/-- What holds of a single pool. -/
def PoolOk (pool : SearchContextPool) : Prop :=
  pool.idle.length ≤ maxIdleSearchContextsPerKey ∧
    match pool.stage with
    | .retaining _ _ => pool.idle.length < maxIdleSearchContextsPerKey
    | .dropCount retained => retained = pool.idle.length
    | .dropBytes bytes => bytes = pool.idle.sum
    | .dropped => pool.idle = []
    | _ => True

/-- Both counters are the sums of all shares, and they keep their bounds. -/
structure Accounted (contexts : SearchContexts) : Prop where
  count : contexts.idleContextCount =
    (contexts.pools.map poolCount).sum + (contexts.takes.map takenCount).sum
  bytes : contexts.idleContextBytes =
    (contexts.pools.map poolBytes).sum + (contexts.takes.map takenBytes).sum
  count_le : contexts.idleContextCount ≤ maxIdleSearchContexts
  bytes_le : contexts.idleContextBytes ≤ maxIdleSearchContextBytes
  pools : ∀ pool ∈ contexts.pools, PoolOk pool

theorem Accounted.poolCount_le (h : contexts.Accounted) {index : Nat} {pool : SearchContextPool}
    (hpool : contexts.pools[index]? = some pool) :
    poolCount pool ≤ contexts.idleContextCount := by
  have hle := List.single_le_sum (fun _ _ => Nat.zero_le _) _
    (List.mem_map_of_mem (f := poolCount) (List.mem_of_getElem? hpool))
  have hcount := h.count
  omega

theorem Accounted.poolBytes_le (h : contexts.Accounted) {index : Nat} {pool : SearchContextPool}
    (hpool : contexts.pools[index]? = some pool) :
    poolBytes pool ≤ contexts.idleContextBytes := by
  have hle := List.single_le_sum (fun _ _ => Nat.zero_le _) _
    (List.mem_map_of_mem (f := poolBytes) (List.mem_of_getElem? hpool))
  have hbytes := h.bytes
  omega

theorem Accounted.takenCount_le (h : contexts.Accounted) {taken : TakenContext}
    (htaken : taken ∈ contexts.takes) : takenCount taken ≤ contexts.idleContextCount := by
  have hle := List.single_le_sum (fun _ _ => Nat.zero_le _) _
    (List.mem_map_of_mem (f := takenCount) htaken)
  have hcount := h.count
  omega

theorem Accounted.takenBytes_le (h : contexts.Accounted) {taken : TakenContext}
    (htaken : taken ∈ contexts.takes) : takenBytes taken ≤ contexts.idleContextBytes := by
  have hle := List.single_le_sum (fun _ _ => Nat.zero_le _) _
    (List.mem_map_of_mem (f := takenBytes) htaken)
  have hbytes := h.bytes
  omega

/-- A pool moves on, and the counters change by as much as its shares. -/
theorem Accounted.setPool (h : contexts.Accounted) {index count bytes : Nat}
    {pool next : SearchContextPool} (hpool : contexts.pools[index]? = some pool)
    (hcount : count + poolCount pool = contexts.idleContextCount + poolCount next)
    (hbytes : bytes + poolBytes pool = contexts.idleContextBytes + poolBytes next)
    (hcount_le : count ≤ maxIdleSearchContexts) (hbytes_le : bytes ≤ maxIdleSearchContextBytes)
    (hok : PoolOk next) :
    (⟨count, bytes, contexts.pools.set index next, contexts.takes⟩ : SearchContexts).Accounted := by
  have hcounts := sum_map_set poolCount (b := next) hpool
  have hsums := sum_map_set poolBytes (b := next) hpool
  have hcountBefore := h.count
  have hbytesBefore := h.bytes
  refine ⟨?_, ?_, hcount_le, hbytes_le, ?_⟩
  · show count = ((contexts.pools.set index next).map poolCount).sum +
      (contexts.takes.map takenCount).sum
    omega
  · show bytes = ((contexts.pools.set index next).map poolBytes).sum +
      (contexts.takes.map takenBytes).sum
    omega
  · intro other hother
    rcases List.mem_or_eq_of_mem_set hother with hmem | rfl
    · exact h.pools other hmem
    · exact hok

/-- A step that changes neither counter. -/
theorem Accounted.setPool_same (h : contexts.Accounted) {index : Nat} {idle : List Nat}
    {stage : PoolStage} {pool : SearchContextPool} (hpool : contexts.pools[index]? = some pool)
    (hcount : poolCount pool = poolCount ⟨idle, stage⟩)
    (hbytes : poolBytes pool = poolBytes ⟨idle, stage⟩) (hok : PoolOk ⟨idle, stage⟩) :
    (contexts.setPool index idle stage).Accounted :=
  h.setPool hpool (by rw [hcount]) (by rw [hbytes]) h.count_le h.bytes_le hok

theorem Accounted.setTake (h : contexts.Accounted) {index count bytes : Nat}
    {taken : TakenContext} {stage : TakeStage} (htaken : contexts.takes[index]? = some taken)
    (hcount : count + takenCount taken =
      contexts.idleContextCount + takenCount { taken with stage := stage })
    (hbytes : bytes + takenBytes taken =
      contexts.idleContextBytes + takenBytes { taken with stage := stage })
    (hcount_le : count ≤ contexts.idleContextCount) (hbytes_le : bytes ≤ contexts.idleContextBytes) :
    (⟨count, bytes, contexts.pools,
      contexts.takes.set index { taken with stage := stage }⟩ : SearchContexts).Accounted := by
  have hcounts := sum_map_set takenCount (b := { taken with stage := stage }) htaken
  have hsums := sum_map_set takenBytes (b := { taken with stage := stage }) htaken
  have hcountBefore := h.count
  have hbytesBefore := h.bytes
  refine ⟨?_, ?_, hcount_le.trans h.count_le, hbytes_le.trans h.bytes_le, h.pools⟩
  · show count = (contexts.pools.map poolCount).sum +
      ((contexts.takes.set index _).map takenCount).sum
    omega
  · show bytes = (contexts.pools.map poolBytes).sum +
      ((contexts.takes.set index _).map takenBytes).sum
    omega

/-! ## The counters -/

theorem fetchSub_of_le {left right : Nat} (hle : right ≤ left) (hlt : left < 2 ^ 64) :
    fetchSub left right = left - right := by
  unfold fetchSub
  omega

theorem Accounted.fetchSub_count (h : contexts.Accounted) {amount : Nat}
    (hle : amount ≤ contexts.idleContextCount) :
    fetchSub contexts.idleContextCount amount = contexts.idleContextCount - amount :=
  fetchSub_of_le hle (Nat.lt_of_le_of_lt h.count_le (by decide))

theorem Accounted.fetchSub_bytes (h : contexts.Accounted) {amount : Nat}
    (hle : amount ≤ contexts.idleContextBytes) :
    fetchSub contexts.idleContextBytes amount = contexts.idleContextBytes - amount :=
  fetchSub_of_le hle (Nat.lt_of_le_of_lt h.bytes_le (by decide))

theorem addBytes_eq_some {bytes retained total : Nat} (h : addBytes bytes retained = some total) :
    total = retained + bytes ∧ total ≤ maxIdleSearchContextBytes := by
  unfold addBytes checkedAdd at h
  split at h
  · rw [Option.filter_eq_some_iff] at h
    obtain ⟨heq, hle⟩ := h
    exact ⟨(Option.some.inj heq).symm, by simpa using hle⟩
  · cases h

theorem addCount_eq_some {count total : Nat} (h : addCount count = some total) :
    total = count + 1 ∧ total ≤ maxIdleSearchContexts := by
  unfold addCount at h
  split at h
  · obtain rfl := Option.some.inj h
    exact ⟨rfl, by omega⟩
  · cases h

/-! ## Steps -/

theorem Accounted.step (h : contexts.Accounted) (hstep : ContextStep contexts next) :
    next.Accounted := by
  have hok : ∀ {index : Nat} {pool : SearchContextPool},
      contexts.pools[index]? = some pool → PoolOk pool :=
    fun hpool => h.pools _ (List.mem_of_getElem? hpool)
  -- The lock is kept, so there is still room.
  have hheld : ∀ {index bytes : Nat} {idle : List Nat} {stage : RetainStage} (later : RetainStage),
      contexts.pools[index]? = some ⟨idle, .retaining bytes stage⟩ →
        PoolOk ⟨idle, .retaining bytes later⟩ := by
    intro index bytes idle stage later hpool
    have hroom : PoolOk ⟨idle, .retaining bytes stage⟩ := hok hpool
    exact hroom
  cases hstep with
  | newPool =>
    refine ⟨?_, ?_, h.count_le, h.bytes_le, ?_⟩
    · simpa [poolCount] using h.count
    · simpa [poolBytes] using h.bytes
    · intro pool hpool
      rcases List.mem_append.mp hpool with hmem | hnew
      · exact h.pools pool hmem
      · obtain rfl := List.mem_singleton.mp hnew
        exact ⟨Nat.zero_le _, trivial⟩
  | takeIdle index bytes idle hpool =>
    have hlength := (hok hpool).1
    have hcounts := sum_map_set poolCount (b := ⟨idle, .unlocked⟩) hpool
    have hsums := sum_map_set poolBytes (b := ⟨idle, .unlocked⟩) hpool
    have hcountBefore := h.count
    have hbytesBefore := h.bytes
    simp only [poolCount, poolBytes, List.length_append, List.length_singleton, List.sum_append,
      List.sum_singleton] at hcounts hsums hlength
    refine ⟨?_, ?_, h.count_le, h.bytes_le, ?_⟩
    · show contexts.idleContextCount = ((contexts.pools.set index _).map poolCount).sum +
        ((contexts.takes ++ [_]).map takenCount).sum
      simp only [List.map_append, List.sum_append, List.map_singleton, List.sum_singleton,
        takenCount, if_true]
      omega
    · show contexts.idleContextBytes = ((contexts.pools.set index _).map poolBytes).sum +
        ((contexts.takes ++ [_]).map takenBytes).sum
      simp only [List.map_append, List.sum_append, List.map_singleton, List.sum_singleton,
        takenBytes, reduceCtorEq, if_false]
      omega
    · intro other hother
      rcases List.mem_or_eq_of_mem_set hother with hmem | rfl
      · exact h.pools other hmem
      · exact ⟨show idle.length ≤ _ by omega, trivial⟩
  | takeCount index taken htaken hstage =>
    have hone : takenCount taken = 1 := by simp [takenCount, hstage]
    have hle := h.takenCount_le (List.mem_of_getElem? htaken)
    refine h.setTake htaken ?_ ?_ ?_ (Nat.le_refl _)
    · rw [h.fetchSub_count (by omega)]
      simp only [takenCount, reduceCtorEq, if_false, hstage, if_true]
      omega
    · show contexts.idleContextBytes + _ = _
      simp [takenBytes, hstage]
    · rw [h.fetchSub_count (by omega)]
      omega
  | takeBytes index taken htaken hstage =>
    have hall : takenBytes taken = taken.bytes := by simp [takenBytes, hstage]
    have hle := h.takenBytes_le (List.mem_of_getElem? htaken)
    refine h.setTake htaken ?_ ?_ (Nat.le_refl _) ?_
    · show contexts.idleContextCount + _ = _
      simp [takenCount, hstage]
    · rw [h.fetchSub_bytes (by omega)]
      simp only [takenBytes, hstage, reduceCtorEq, if_false, if_true]
      omega
    · rw [h.fetchSub_bytes (by omega)]
      omega
  | retainIdle index bytes idle hpool hroom => exact h.setPool_same hpool rfl rfl ⟨hroom.le, hroom⟩
  | loadBytes index bytes idle hpool => exact h.setPool_same hpool rfl rfl (hheld _ hpool)
  | bytesFull index bytes current idle hpool hfull =>
    exact h.setPool_same hpool rfl rfl ⟨(hok hpool).1, trivial⟩
  | bytesReserved index bytes total idle hpool hnext =>
    obtain ⟨rfl, hle⟩ := addBytes_eq_some hnext
    refine h.setPool hpool rfl ?_ h.count_le hle (hheld _ hpool)
    simp only [poolBytes]
    omega
  | bytesRetry index bytes current total idle hpool hnext =>
    exact h.setPool_same hpool rfl rfl (hheld _ hpool)
  | loadCount index bytes idle hpool => exact h.setPool_same hpool rfl rfl (hheld _ hpool)
  | countFull index bytes current idle hpool hfull =>
    exact h.setPool_same hpool rfl rfl (hheld _ hpool)
  | countReserved index bytes total idle hpool hnext =>
    obtain ⟨rfl, hle⟩ := addCount_eq_some hnext
    refine h.setPool hpool ?_ rfl hle h.bytes_le (hheld _ hpool)
    simp only [poolCount]
    omega
  | countRetry index bytes current total idle hpool hnext =>
    exact h.setPool_same hpool rfl rfl (hheld _ hpool)
  | push index bytes idle hpool =>
    have hroom : idle.length < maxIdleSearchContextsPerKey := (hok hpool).2
    refine h.setPool_same hpool ?_ ?_ ⟨?_, trivial⟩
    · simp [poolCount]
    · simp [poolBytes]
    · simpa using hroom
  | undo index bytes idle hpool =>
    have hshare : poolBytes ⟨idle, .retaining bytes .undo⟩ = idle.sum + bytes := rfl
    have hle := h.poolBytes_le hpool
    have hsub := h.fetchSub_bytes (show bytes ≤ contexts.idleContextBytes by omega)
    refine h.setPool hpool rfl ?_ h.count_le ?_ ⟨(hok hpool).1, trivial⟩
    · rw [hsub, hshare]
      simp only [poolBytes]
      omega
    · rw [hsub]
      exact (Nat.sub_le _ _).trans h.bytes_le
  | drop index idle hpool halone =>
    split
    · exact h.setPool_same hpool rfl rfl ⟨(hok hpool).1, rfl⟩
    · next hempty =>
      obtain rfl : idle = [] := List.length_eq_zero_iff.mp (by omega)
      exact h.setPool_same hpool rfl rfl ⟨(hok hpool).1, trivial⟩
  | dropCount index retained idle hpool =>
    have hle := h.poolCount_le hpool
    have hsub := h.fetchSub_count (show retained ≤ contexts.idleContextCount from hle)
    refine h.setPool hpool ?_ rfl ?_ h.bytes_le ⟨(hok hpool).1, trivial⟩
    · rw [hsub]
      simp only [poolCount] at hle ⊢
      omega
    · rw [hsub]
      exact (Nat.sub_le _ _).trans h.count_le
  | dropSum index idle hpool => exact h.setPool_same hpool rfl rfl ⟨(hok hpool).1, rfl⟩
  | dropBytes index bytes idle hpool =>
    have hle := h.poolBytes_le hpool
    have hsub := h.fetchSub_bytes (show bytes ≤ contexts.idleContextBytes from hle)
    refine h.setPool hpool rfl ?_ h.count_le ?_ ⟨(hok hpool).1, trivial⟩
    · rw [hsub]
      simp only [poolBytes] at hle ⊢
      omega
    · rw [hsub]
      exact (Nat.sub_le _ _).trans h.bytes_le
  | dropFields index idle hpool => exact h.setPool_same hpool rfl rfl ⟨Nat.zero_le _, rfl⟩

theorem accounted_of_run (h : ReflTransGen ContextStep new contexts) : contexts.Accounted := by
  induction h with
  | refl => exact ⟨rfl, rfl, Nat.zero_le _, Nat.zero_le _, nofun⟩
  | tail _ hstep ih => exact ih.step hstep

/-! ## Runs -/

/-- A pool that is not being dropped. -/
def isLive (pool : SearchContextPool) : Bool :=
  match pool.stage with
  | .unlocked | .retaining _ _ => true
  | _ => false

/-- No operation is in progress. -/
def Quiet (contexts : SearchContexts) : Prop :=
  (∀ pool ∈ contexts.pools, pool.stage = .unlocked ∨ pool.stage = .dropped) ∧
    ∀ taken ∈ contexts.takes, taken.stage = .done

/-- The counters are as large as what any operation is about to subtract. -/
def NoUnderflow (contexts : SearchContexts) : Prop :=
  (∀ taken ∈ contexts.takes, (taken.stage = .count → 1 ≤ contexts.idleContextCount) ∧
    (taken.stage = .bytes → taken.bytes ≤ contexts.idleContextBytes)) ∧
  ∀ pool ∈ contexts.pools, ∀ amount,
    (pool.stage = .dropCount amount → amount ≤ contexts.idleContextCount) ∧
    (pool.stage = .dropBytes amount ∨ pool.stage = .retaining amount .undo →
      amount ≤ contexts.idleContextBytes)

theorem Accounted.noUnderflow (h : contexts.Accounted) : contexts.NoUnderflow := by
  constructor
  · intro taken htaken
    have hcount := h.takenCount_le htaken
    have hbytes := h.takenBytes_le htaken
    constructor <;> intro hstage
    · simpa [takenCount, hstage] using hcount
    · simpa [takenBytes, hstage] using hbytes
  · intro pool hpool amount
    obtain ⟨index, hindex⟩ := List.mem_iff_getElem?.mp hpool
    have hcount := h.poolCount_le hindex
    have hbytes := h.poolBytes_le hindex
    constructor
    · intro hstage
      simpa [poolCount, hstage] using hcount
    · intro hstage
      rcases hstage with hstage | hstage
      · simpa [poolBytes, hstage] using hbytes
      · simp only [poolBytes, hstage] at hbytes
        omega

theorem share_of_live {pool : SearchContextPool} (h : isLive pool) :
    pool.idle.length ≤ poolCount pool ∧ pool.idle.sum ≤ poolBytes pool := by
  obtain ⟨idle, stage⟩ := pool
  cases stage with
  | unlocked => exact ⟨Nat.le_refl _, Nat.le_refl _⟩
  | retaining bytes stage => cases stage <;> simp [poolCount, poolBytes]
  | _ => simp [isLive] at h

/-- Without an operation a pool has a share of what it retains. -/
theorem share_of_quiet {pool : SearchContextPool} (hok : PoolOk pool)
    (h : pool.stage = .unlocked ∨ pool.stage = .dropped) :
    poolCount pool = pool.idle.length ∧ poolBytes pool = pool.idle.sum := by
  rcases h with hunlocked | hdropped
  · simp [poolCount, poolBytes, hunlocked]
  · have hempty : pool.idle = [] := by simpa [PoolOk, hdropped] using hok.2
    simp [poolCount, poolBytes, hdropped, hempty]

/-- What the live pools retain is part of the sum of all shares. -/
theorem sum_live_le {weight share : SearchContextPool → Nat} {pools : List SearchContextPool}
    (h : ∀ pool ∈ pools, isLive pool → weight pool ≤ share pool) :
    ((pools.filter isLive).map weight).sum ≤ (pools.map share).sum := by
  induction pools with
  | nil => exact Nat.le_refl _
  | cons pool pools ih =>
    rw [List.forall_mem_cons] at h
    have hrest := ih h.2
    rw [List.filter_cons]
    split
    · next hlive =>
      have hpool := h.1 hlive
      simp only [List.map_cons, List.sum_cons]
      omega
    · simp only [List.map_cons, List.sum_cons]
      omega

/-- A run in which one context of 7 bytes is retained. -/
theorem retainOne : ReflTransGen ContextStep new ⟨1, 7, [⟨[7], .unlocked⟩], []⟩ :=
  (((((((ReflTransGen.refl.tail (.newPool _)).tail (.retainIdle _ 0 7 [] rfl (by decide))).tail
    (.loadBytes _ 0 7 [] rfl)).tail (.bytesReserved _ 0 7 7 [] rfl rfl)).tail
      (.loadCount _ 0 7 [] rfl)).tail (.countReserved _ 0 7 1 [] rfl rfl)).tail
        (.push _ 0 7 [] rfl))

/-- In every run the counters bound what the live pools retain, keep their own bounds and do not
    underflow. They are exact when no operation is in progress. -/
theorem idleContexts_accounted (h : ReflTransGen ContextStep new contexts) :
    ((contexts.pools.filter isLive).map fun pool => pool.idle.length).sum ≤
        contexts.idleContextCount ∧
      ((contexts.pools.filter isLive).map fun pool => pool.idle.sum).sum ≤
        contexts.idleContextBytes ∧
      contexts.NoUnderflow ∧
      contexts.idleContextCount ≤ maxIdleSearchContexts ∧
      contexts.idleContextBytes ≤ maxIdleSearchContextBytes ∧
      (contexts.Quiet →
        contexts.idleContextCount = (contexts.pools.map fun pool => pool.idle.length).sum ∧
        contexts.idleContextBytes = (contexts.pools.map fun pool => pool.idle.sum).sum) ∧
      ∀ pool ∈ contexts.pools, pool.idle.length ≤ maxIdleSearchContextsPerKey := by
  have haccounted := accounted_of_run h
  have hcount := haccounted.count
  have hbytes := haccounted.bytes
  refine ⟨?_, ?_, haccounted.noUnderflow, haccounted.count_le, haccounted.bytes_le, ?_,
    fun pool hpool => (haccounted.pools pool hpool).1⟩
  · have hle := sum_live_le fun pool (_ : pool ∈ contexts.pools) hlive => (share_of_live hlive).1
    omega
  · have hle := sum_live_le fun pool (_ : pool ∈ contexts.pools) hlive => (share_of_live hlive).2
    omega
  · rintro ⟨hpools, htakes⟩
    have hshare : ∀ pool ∈ contexts.pools,
        poolCount pool = pool.idle.length ∧ poolBytes pool = pool.idle.sum :=
      fun pool hpool => share_of_quiet (haccounted.pools pool hpool) (hpools pool hpool)
    have htaken : (contexts.takes.map takenCount).sum = 0 ∧
        (contexts.takes.map takenBytes).sum = 0 := by
      constructor
      · exact List.sum_eq_zero (by simp +contextual [takenCount, htakes])
      · exact List.sum_eq_zero (by simp +contextual [takenBytes, htakes])
    rw [List.map_congr_left fun pool hpool => (hshare pool hpool).1] at hcount
    rw [List.map_congr_left fun pool hpool => (hshare pool hpool).2] at hbytes
    omega

/-- A context of 7 bytes is retained and taken again. -/
theorem idleContexts_accounted_taken :
    (⟨1, 7, [⟨[], .unlocked⟩], [⟨0, 7, .count⟩]⟩ : SearchContexts).NoUnderflow :=
  (idleContexts_accounted (retainOne.tail (.takeIdle _ 0 7 [] rfl))).2.2.1

/-- While its pool is dropped, a context is retained that the count no longer has. -/
theorem dropped_pool_below :
    ∃ contexts, ReflTransGen ContextStep new contexts ∧
      contexts.idleContextCount < (contexts.pools.map fun pool => pool.idle.length).sum :=
  ⟨⟨0, 7, [⟨[7], .dropSum⟩], []⟩,
    (retainOne.tail (.drop _ 0 [7] rfl nofun)).tail (.dropCount _ 0 1 [7] rfl), by decide⟩

end Ivygrep.Native.SearchContexts
