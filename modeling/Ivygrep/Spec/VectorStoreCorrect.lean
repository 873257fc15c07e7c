import Ivygrep.Native.VectorStore

/-!
# The vector store grows by bounded steps

A target lies above the capacity, by no more than the growth limit or the least capacity. The loop
that reserves for a batch therefore ends, with room for the batch.

## Key results

- `nextCapacity_bounds`: one target
- `reserveBatch_terminates`: the loop
- `vectorStore_growth`: both
-/

namespace Ivygrep.Native.VectorStore

theorem minCapacity_le_growthLimit (dimensions : Nat) (quantization : ScalarKind)
    (connectivity : Nat) : minCapacity ≤ capacityGrowthLimit dimensions quantization connectivity :=
  Nat.le_max_left _ _

/-- A target above the capacity that does not exceed it by too much. -/
theorem boundedCapacityTarget_bounds {needed capacity growthLimit : Nat} (hneeded : capacity < needed)
    (husize : needed ≤ usizeMax) (hlimit : 0 < growthLimit) :
    capacity < boundedCapacityTarget needed capacity growthLimit ∧
      boundedCapacityTarget needed capacity growthLimit ≤
        capacity + max growthLimit minCapacity := by
  have hmin : minCapacity = 1024 := rfl
  simp only [usizeMax] at husize
  cases capacity with
  | zero =>
    simp only [boundedCapacityTarget, saturatingAdd]
    omega
  | succ capacity =>
    simp only [boundedCapacityTarget, saturatingAdd]
    omega

section

variable {Index Error : Type} {store : VectorStore Index Error}

theorem nextCapacity_eq_none {index : Index} {additional : Nat} :
    store.nextCapacity index additional = none ↔
      saturatingAdd (store.size index) additional ≤ store.capacity index := by
  simp [nextCapacity]

theorem nextCapacity_bounds {index : Index} {additional target : Nat}
    (h : store.nextCapacity index additional = some target) :
    store.capacity index < target ∧
      target ≤ store.capacity index + max (store.growthLimit index) minCapacity := by
  simp only [nextCapacity] at h
  split at h
  · cases h
  · next hneeded =>
    obtain rfl := Option.some.inj h
    have hlimit : 0 < store.growthLimit index :=
      Nat.lt_of_lt_of_le (by decide) (minCapacity_le_growthLimit _ _ _)
    exact boundedCapacityTarget_bounds (Nat.lt_of_not_le hneeded) (Nat.min_le_right _ _) hlimit

/-- What the native index promises of `reserve`. -/
structure Reserves (store : VectorStore Index Error) : Prop where
  capacity : ∀ index target grown, store.reserve index target = .ok grown →
    target ≤ store.capacity grown
  size : ∀ index target grown, store.reserve index target = .ok grown →
    store.size grown = store.size index

/-- The capacity that is missing bounds the number of rounds. -/
theorem reserveBatch_terminates (hreserves : store.Reserves) {entries fuel : Nat} {index : Index}
    (hfuel : saturatingAdd (store.size index) entries - store.capacity index < fuel) :
    (∃ grown, store.reserveBatch entries fuel index = some (.ok grown) ∧
        store.size grown = store.size index ∧
        saturatingAdd (store.size index) entries ≤ store.capacity grown) ∨
      ∃ error reached target, store.reserveBatch entries fuel index = some (.error error) ∧
        store.reserve reached target = .error error := by
  induction fuel generalizing index with
  | zero => omega
  | succ fuel ih =>
    rw [reserveBatch]
    cases hnext : store.nextCapacity index entries with
    | none => exact .inl ⟨index, rfl, rfl, nextCapacity_eq_none.mp hnext⟩
    | some target =>
      cases hreserve : store.reserve index target with
      | error error =>
        refine .inr ⟨error, index, target, ?_, hreserve⟩
        simp only [hreserve]
      | ok grown =>
        simp only [hreserve]
        have hgrows := (nextCapacity_bounds hnext).1
        have hcapacity := hreserves.capacity index target grown hreserve
        have hsize := hreserves.size index target grown hreserve
        have hmissing : ¬ saturatingAdd (store.size index) entries ≤ store.capacity index := by
          rw [← nextCapacity_eq_none, hnext]
          exact nofun
        rw [← hsize] at hmissing hfuel ⊢
        exact ih (by omega)

/-- Each target is above the capacity, by at most the growth limit or the least capacity. The loop
    over the rounds of a batch ends. Unless `reserve` fails there is room for the batch then. -/
theorem vectorStore_growth (store : VectorStore Index Error) :
    (∀ index additional target, store.nextCapacity index additional = some target →
      store.capacity index < target ∧
        target - store.capacity index ≤ max (store.growthLimit index) minCapacity) ∧
      (store.Reserves → ∀ index entries, ∃ fuel,
        (∃ grown, store.reserveBatch entries fuel index = some (.ok grown) ∧
            store.nextCapacity grown entries = none ∧
            (store.size index + entries ≤ usizeMax →
              store.size index + entries ≤ store.capacity grown)) ∨
          ∃ error reached target, store.reserveBatch entries fuel index = some (.error error) ∧
            store.reserve reached target = .error error) := by
  constructor
  · intro index additional target h
    obtain ⟨hgrows, hbound⟩ := nextCapacity_bounds h
    exact ⟨hgrows, by omega⟩
  · intro hreserves index entries
    refine ⟨_, (reserveBatch_terminates hreserves (Nat.lt_succ_self _)).imp_left ?_⟩
    rintro ⟨grown, hgrown, hsize, hroom⟩
    refine ⟨grown, hgrown, ?_, fun hfits => ?_⟩
    · rw [nextCapacity_eq_none, hsize]
      exact hroom
    · have hsum : saturatingAdd (store.size index) entries = store.size index + entries :=
        Nat.min_eq_left hfits
      rwa [hsum] at hroom

end

/-- An index that reserves exactly what it is asked for. -/
def exactIndex : VectorStore (Nat × Nat) Empty where
  size := Prod.fst
  capacity := Prod.snd
  dimensions _ := 256
  connectivity _ := 16
  reserve index target := .ok (index.1, target)
  quantization := .f16

/-- The first batch of a new store: the hypotheses hold of an exact index. -/
theorem vectorStore_growth_exact : ∃ fuel grown,
    exactIndex.reserveBatch 5000 fuel (0, 0) = some (.ok grown) ∧ 5000 ≤ grown.2 := by
  have hreserves : exactIndex.Reserves := by
    constructor
    · rintro index target grown h
      cases h
      exact Nat.le_refl _
    · rintro index target grown h
      cases h
      rfl
  obtain ⟨fuel, ⟨grown, hgrown, -, hroom⟩ | ⟨error, -⟩⟩ :=
    (vectorStore_growth exactIndex).2 hreserves (0, 0) 5000
  · refine ⟨fuel, grown, hgrown, ?_⟩
    have hfits := hroom (by decide)
    exact hfits
  · cases error

end Ivygrep.Native.VectorStore
