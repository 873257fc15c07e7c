import Mathlib

/-!
# Folding in parallel

A parallel fold cuts its items into segments, folds each of them from a first value, and merges the
results in any grouping that keeps their order.
-/

namespace ForStd

/-- The segments of a parallel fold, and how their results are merged. -/
inductive Partition (α : Type*) where
  | segment (items : List α)
  | join (left right : Partition α)

namespace Partition

variable {α β : Type*}

def items : Partition α → List α
  | segment items => items
  | join left right => left.items ++ right.items

/-- `fold` and then `reduce`. -/
def foldReduce (first : β) (step : β → α → β) (merge : β → β → β) : Partition α → β
  | segment items => items.foldl step first
  | join left right => merge (left.foldReduce first step merge) (right.foldReduce first step merge)

/-- What holds of nothing, and is kept by a fold and by a merge, holds of the items. -/
theorem foldReduce_induction (Holds : List α → β → Prop) {first : β} {step : β → α → β}
    {merge : β → β → β} (hfirst : Holds [] first)
    (hstep : ∀ items a b, Holds items b → Holds (items ++ [a]) (step b a))
    (hmerge : ∀ left right b c, Holds left b → Holds right c → Holds (left ++ right) (merge b c))
    (partition : Partition α) : Holds partition.items (partition.foldReduce first step merge) := by
  induction partition with
  | segment items =>
    have hfold : ∀ done b, Holds done b → Holds (done ++ items) (items.foldl step b) := by
      induction items with
      | nil =>
        intro done b h
        rw [List.append_nil]
        exact h
      | cons a items ih =>
        intro done b h
        rw [List.append_cons]
        exact ih (done ++ [a]) (step b a) (hstep done a b h)
    exact hfold [] first hfirst
  | join left right ihLeft ihRight => exact hmerge left.items right.items _ _ ihLeft ihRight

/-- Where a fold and a merge compute the same function of the items, the partition is of no
    concern. -/
theorem foldReduce_eq {first : β} {step : β → α → β} {merge : β → β → β} {result : List α → β}
    (hfirst : result [] = first) (hstep : ∀ items a, step (result items) a = result (items ++ [a]))
    (hmerge : ∀ left right, merge (result left) (result right) = result (left ++ right))
    (partition : Partition α) :
    partition.foldReduce first step merge = result partition.items := by
  refine foldReduce_induction (fun items b => b = result items) hfirst.symm ?_ ?_ partition
  · rintro items a b rfl
    exact hstep items a
  · rintro left right b c rfl rfl
    exact hmerge left right

end Partition

/-- `slice::chunks`: parts of `size` items each, but for the last one. -/
def chunksFuel (size : Nat) {α : Type*} : Nat → List α → List (List α)
  | 0, _ => []
  | _ + 1, [] => []
  | fuel + 1, a :: items =>
    (a :: items).take size :: chunksFuel size fuel ((a :: items).drop size)

@[inherit_doc chunksFuel]
def chunks {α : Type*} (size : Nat) (items : List α) : List (List α) :=
  chunksFuel size items.length items

theorem chunksFuel_flatten {α : Type*} {size fuel : Nat} (hsize : 0 < size) {items : List α}
    (h : items.length ≤ fuel) : (chunksFuel size fuel items).flatten = items := by
  induction fuel generalizing items with
  | zero =>
    rw [List.length_eq_zero_iff.mp (Nat.le_zero.mp h)]
    rfl
  | succ fuel ih =>
    cases items with
    | nil => rfl
    | cons a items =>
      have hshort : ((a :: items).drop size).length ≤ fuel := by
        rw [List.length_drop]
        omega
      rw [chunksFuel, List.flatten_cons, ih hshort, List.take_append_drop]

theorem chunks_flatten {α : Type*} {size : Nat} (hsize : 0 < size) (items : List α) :
    (chunks size items).flatten = items := chunksFuel_flatten hsize (Nat.le_refl _)

end ForStd
