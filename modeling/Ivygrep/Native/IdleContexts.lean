import Ivygrep.Native.Usize
import Mathlib.Algebra.Ring.Nat
import Mathlib.Logic.Relation

/-!
# Idle search contexts

`SearchContextPool` of `daemon.rs`, as steps of any number of operations on any number of pools: each
critical section of a pool's lock, and each access to one of the two shared counters, is one step. A
context stands for its byte estimate.
-/

namespace Ivygrep.Native

/-- `MAX_IDLE_SEARCH_CONTEXT_BYTES`. -/
def maxIdleSearchContextBytes : Nat := 256 * 1024 * 1024

/-- `MAX_IDLE_SEARCH_CONTEXTS_PER_KEY`. -/
def maxIdleSearchContextsPerKey : Nat := 4

/-- `MAX_IDLE_SEARCH_CONTEXTS`. -/
def maxIdleSearchContexts : Nat := 32

/-- How far `retain_idle` is once it has the lock. `updateBytes` and `updateCount` are the loop of
    `update_atomic_usize` with its `current`. -/
inductive RetainStage where
  | loadBytes
  | updateBytes (current : Nat)
  | loadCount
  | updateCount (current : Nat)
  | push
  | undo
deriving DecidableEq, Repr

/-- Who works on a pool alone: nobody, the `retain_idle` that has the lock, or `drop`. -/
inductive PoolStage where
  | unlocked
  | retaining (bytes : Nat) (stage : RetainStage)
  | dropCount (retained : Nat)
  | dropSum
  | dropBytes (bytes : Nat)
  | dropFields
  | dropped
deriving DecidableEq, Repr

structure SearchContextPool where
  idle : List Nat
  stage : PoolStage
deriving DecidableEq, Repr

/-- Which counter `take_idle` changes next. -/
inductive TakeStage where
  | count
  | bytes
  | done
deriving DecidableEq, Repr

/-- A `take_idle` after it has popped a context. -/
structure TakenContext where
  pool : Nat
  bytes : Nat
  stage : TakeStage
deriving DecidableEq, Repr

structure SearchContexts where
  idleContextCount : Nat
  idleContextBytes : Nat
  pools : List SearchContextPool
  takes : List TakenContext
deriving DecidableEq, Repr

namespace SearchContexts

def new : SearchContexts := ⟨0, 0, [], []⟩

/-- The update of the bytes in `retain_idle`. -/
def addBytes (bytes retained : Nat) : Option Nat :=
  (checkedAdd retained bytes).filter fun total => total ≤ maxIdleSearchContextBytes

/-- The update of the count in `retain_idle`. -/
def addCount (count : Nat) : Option Nat :=
  if count < maxIdleSearchContexts then some (count + 1) else none

def setPool (contexts : SearchContexts) (index : Nat) (idle : List Nat) (stage : PoolStage) :
    SearchContexts :=
  { contexts with pools := contexts.pools.set index ⟨idle, stage⟩ }

def setTake (contexts : SearchContexts) (index : Nat) (taken : TakenContext) (stage : TakeStage) :
    SearchContexts :=
  { contexts with takes := contexts.takes.set index { taken with stage := stage } }

end SearchContexts

open SearchContexts

/-- The steps of all operations. A `take_idle` of an empty pool and a `retain_idle` into a full one
    change nothing. A compare-exchange that fails goes on with the value it met. -/
inductive ContextStep : SearchContexts → SearchContexts → Prop where
  | newPool (contexts : SearchContexts) :
      ContextStep contexts { contexts with pools := contexts.pools ++ [⟨[], .unlocked⟩] }
  | takeIdle (contexts : SearchContexts) (index bytes : Nat) (idle : List Nat)
      (hpool : contexts.pools[index]? = some ⟨idle ++ [bytes], .unlocked⟩) :
      ContextStep contexts
        { contexts.setPool index idle .unlocked with
          takes := contexts.takes ++ [⟨index, bytes, .count⟩] }
  | takeCount (contexts : SearchContexts) (index : Nat) (taken : TakenContext)
      (htaken : contexts.takes[index]? = some taken) (hstage : taken.stage = .count) :
      ContextStep contexts
        { contexts.setTake index taken .bytes with
          idleContextCount := fetchSub contexts.idleContextCount 1 }
  | takeBytes (contexts : SearchContexts) (index : Nat) (taken : TakenContext)
      (htaken : contexts.takes[index]? = some taken) (hstage : taken.stage = .bytes) :
      ContextStep contexts
        { contexts.setTake index taken .done with
          idleContextBytes := fetchSub contexts.idleContextBytes taken.bytes }
  | retainIdle (contexts : SearchContexts) (index bytes : Nat) (idle : List Nat)
      (hpool : contexts.pools[index]? = some ⟨idle, .unlocked⟩)
      (hroom : idle.length < maxIdleSearchContextsPerKey) :
      ContextStep contexts (contexts.setPool index idle (.retaining bytes .loadBytes))
  | loadBytes (contexts : SearchContexts) (index bytes : Nat) (idle : List Nat)
      (hpool : contexts.pools[index]? = some ⟨idle, .retaining bytes .loadBytes⟩) :
      ContextStep contexts
        (contexts.setPool index idle (.retaining bytes (.updateBytes contexts.idleContextBytes)))
  | bytesFull (contexts : SearchContexts) (index bytes current : Nat) (idle : List Nat)
      (hpool : contexts.pools[index]? = some ⟨idle, .retaining bytes (.updateBytes current)⟩)
      (hfull : addBytes bytes current = none) :
      ContextStep contexts (contexts.setPool index idle .unlocked)
  | bytesReserved (contexts : SearchContexts) (index bytes next : Nat) (idle : List Nat)
      (hpool : contexts.pools[index]? =
        some ⟨idle, .retaining bytes (.updateBytes contexts.idleContextBytes)⟩)
      (hnext : addBytes bytes contexts.idleContextBytes = some next) :
      ContextStep contexts
        { contexts.setPool index idle (.retaining bytes .loadCount) with idleContextBytes := next }
  | bytesRetry (contexts : SearchContexts) (index bytes current next : Nat) (idle : List Nat)
      (hpool : contexts.pools[index]? = some ⟨idle, .retaining bytes (.updateBytes current)⟩)
      (hnext : addBytes bytes current = some next) :
      ContextStep contexts
        (contexts.setPool index idle (.retaining bytes (.updateBytes contexts.idleContextBytes)))
  | loadCount (contexts : SearchContexts) (index bytes : Nat) (idle : List Nat)
      (hpool : contexts.pools[index]? = some ⟨idle, .retaining bytes .loadCount⟩) :
      ContextStep contexts
        (contexts.setPool index idle (.retaining bytes (.updateCount contexts.idleContextCount)))
  | countFull (contexts : SearchContexts) (index bytes current : Nat) (idle : List Nat)
      (hpool : contexts.pools[index]? = some ⟨idle, .retaining bytes (.updateCount current)⟩)
      (hfull : addCount current = none) :
      ContextStep contexts (contexts.setPool index idle (.retaining bytes .undo))
  | countReserved (contexts : SearchContexts) (index bytes next : Nat) (idle : List Nat)
      (hpool : contexts.pools[index]? =
        some ⟨idle, .retaining bytes (.updateCount contexts.idleContextCount)⟩)
      (hnext : addCount contexts.idleContextCount = some next) :
      ContextStep contexts
        { contexts.setPool index idle (.retaining bytes .push) with idleContextCount := next }
  | countRetry (contexts : SearchContexts) (index bytes current next : Nat) (idle : List Nat)
      (hpool : contexts.pools[index]? = some ⟨idle, .retaining bytes (.updateCount current)⟩)
      (hnext : addCount current = some next) :
      ContextStep contexts
        (contexts.setPool index idle (.retaining bytes (.updateCount contexts.idleContextCount)))
  | push (contexts : SearchContexts) (index bytes : Nat) (idle : List Nat)
      (hpool : contexts.pools[index]? = some ⟨idle, .retaining bytes .push⟩) :
      ContextStep contexts (contexts.setPool index (idle ++ [bytes]) .unlocked)
  | undo (contexts : SearchContexts) (index bytes : Nat) (idle : List Nat)
      (hpool : contexts.pools[index]? = some ⟨idle, .retaining bytes .undo⟩) :
      ContextStep contexts
        { contexts.setPool index idle .unlocked with
          idleContextBytes := fetchSub contexts.idleContextBytes bytes }
  | drop (contexts : SearchContexts) (index : Nat) (idle : List Nat)
      (hpool : contexts.pools[index]? = some ⟨idle, .unlocked⟩)
      (halone : ∀ taken ∈ contexts.takes, taken.stage ≠ .done → taken.pool ≠ index) :
      ContextStep contexts
        (contexts.setPool index idle (if 0 < idle.length then .dropCount idle.length else .dropFields))
  | dropCount (contexts : SearchContexts) (index retained : Nat) (idle : List Nat)
      (hpool : contexts.pools[index]? = some ⟨idle, .dropCount retained⟩) :
      ContextStep contexts
        { contexts.setPool index idle .dropSum with
          idleContextCount := fetchSub contexts.idleContextCount retained }
  | dropSum (contexts : SearchContexts) (index : Nat) (idle : List Nat)
      (hpool : contexts.pools[index]? = some ⟨idle, .dropSum⟩) :
      ContextStep contexts (contexts.setPool index idle (.dropBytes idle.sum))
  | dropBytes (contexts : SearchContexts) (index bytes : Nat) (idle : List Nat)
      (hpool : contexts.pools[index]? = some ⟨idle, .dropBytes bytes⟩) :
      ContextStep contexts
        { contexts.setPool index idle .dropFields with
          idleContextBytes := fetchSub contexts.idleContextBytes bytes }
  | dropFields (contexts : SearchContexts) (index : Nat) (idle : List Nat)
      (hpool : contexts.pools[index]? = some ⟨idle, .dropFields⟩) :
      ContextStep contexts (contexts.setPool index [] .dropped)

end Ivygrep.Native
