import Ivygrep.Native.Usize

/-!
# Capacity of the vector store

`next_capacity` of `vector_store/optimized.rs` and the loops that reserve by it. The native index is
a parameter.
-/

namespace Ivygrep.Native

namespace VectorStore

/-- `MIN_CAPACITY`. -/
def minCapacity : Nat := 1024

/-- `MAX_CAPACITY_GROWTH`. -/
def maxCapacityGrowth : Nat := 262144

/-- `MAX_CAPACITY_GROWTH_BYTES`. -/
def maxCapacityGrowthBytes : Nat := 128 * 1024 * 1024

inductive ScalarKind where
  | f16
  | f32
deriving DecidableEq

def ScalarKind.bytes : ScalarKind → Nat
  | f16 => 2
  | f32 => 4

def capacityGrowthLimit (dimensions : Nat) (quantization : ScalarKind) (connectivity : Nat) : Nat :=
  let vectorBytes := saturatingMul dimensions quantization.bytes
  let graphBytes := saturatingMul (saturatingMul connectivity 2) 4
  let lookupAndNodeBytes := 8 + 2 * 8 + 64
  let estimatedEntryBytes :=
    max (saturatingAdd (saturatingAdd vectorBytes graphBytes) lookupAndNodeBytes) 1
  clamp (maxCapacityGrowthBytes / estimatedEntryBytes) minCapacity maxCapacityGrowth

def boundedCapacityTarget (needed capacity growthLimit : Nat) : Nat :=
  let geometricTarget :=
    match capacity with
    | 0 => minCapacity
    | current => saturatingAdd current (min current growthLimit)
  let requestedTarget := min needed (saturatingAdd capacity growthLimit)
  max (max geometricTarget requestedTarget) (min needed minCapacity)

end VectorStore

open VectorStore

/-- What a store does with its native index. -/
structure VectorStore (Index Error : Type) where
  size : Index → Nat
  capacity : Index → Nat
  dimensions : Index → Nat
  connectivity : Index → Nat
  reserve : Index → Nat → Except Error Index
  quantization : ScalarKind

namespace VectorStore

variable {Index Error : Type} (store : VectorStore Index Error)

def growthLimit (index : Index) : Nat :=
  capacityGrowthLimit (store.dimensions index) store.quantization (store.connectivity index)

def nextCapacity (index : Index) (additional : Nat) : Option Nat :=
  let needed := saturatingAdd (store.size index) additional
  if needed ≤ store.capacity index then none
  else some (boundedCapacityTarget needed (store.capacity index) (store.growthLimit index))

/-- `reserve_additional`, and `ensure_capacity_for_insert` for one entry. -/
def reserveAdditional (index : Index) (additional : Nat) : Except Error Index :=
  match store.nextCapacity index additional with
  | none => .ok index
  | some target => store.reserve index target

/-- The loop of `add_batch_unchecked` that reserves for all entries. -/
def reserveBatch (entries : Nat) : Nat → Index → Option (Except Error Index)
  | 0, _ => none
  | fuel + 1, index =>
    match store.nextCapacity index entries with
    | none => some (.ok index)
    | some target =>
      match store.reserve index target with
      | .error error => some (.error error)
      | .ok grown => reserveBatch entries fuel grown

end VectorStore

end Ivygrep.Native
