import Ivygrep.ForStd.Partition
import Ivygrep.ForStd.Ranking

/-!
# Heaps that keep the best entries

A heap is the list of its entries from the best one to the worst one, which is on its top. A heap of
bounded size holds the first entries of the ranking of all that were pushed, also when it is merged
from the heaps of several parts.
-/

namespace ForStd.BinaryHeap

variable {α : Type*} (r : α → α → Prop) [DecidableRel r]

def push (heap : List α) (x : α) : List α := insertLast r x heap

def pop (heap : List α) : List α := heap.dropLast

/-- The worst entry. -/
def peek (heap : List α) : Option α := heap.getLast?

/-- Pushes an entry, and pops one when there are more than the limit. -/
def pushBounded (limit : Option Nat) (heap : List α) (x : α) : List α :=
  let heap := push r heap x
  if limit.any (· < heap.length) then pop heap else heap

/-- The order in which a heap gives its entries, of which nothing is promised. -/
structure EntryOrder (α : Type*) where
  entries : List α → List α
  perm : ∀ heap, (entries heap).Perm heap

/-- Pushes the entries of the second heap onto the first. -/
def mergeBounded (order : EntryOrder α) (limit : Option Nat) (left right : List α) : List α :=
  (order.entries right).foldl (pushBounded r limit) left

/-- `List.take`, when there is a limit. -/
def takeUpTo (limit : Option Nat) (l : List α) : List α :=
  match limit with
  | none => l
  | some limit => l.take limit

/-- The first entries of a ranking. -/
def best (limit : Option Nat) (l : List α) : List α := takeUpTo limit (l.insertionSort r)

theorem takeUpTo_nil (limit : Option Nat) : takeUpTo limit ([] : List α) = [] := by
  cases limit with
  | none => rfl
  | some limit => exact List.take_nil

theorem takeUpTo_sublist (limit : Option Nat) (l : List α) : (takeUpTo limit l).Sublist l := by
  cases limit with
  | none => exact List.Sublist.refl l
  | some limit => exact List.take_sublist limit l

theorem takeUpTo_map {β : Type*} (f : α → β) (limit : Option Nat) (l : List α) :
    takeUpTo limit (l.map f) = (takeUpTo limit l).map f := by
  cases limit with
  | none => rfl
  | some limit => exact List.map_take.symm

theorem takeUpTo_of_length_le {limit : Option Nat} {l : List α}
    (h : limit.all (l.length ≤ ·) = true) : takeUpTo limit l = l := by
  cases limit with
  | none => rfl
  | some limit => exact List.take_of_length_le (of_decide_eq_true h)

/-! ## A push -/

theorem pushBounded_some (limit : Nat) (heap : List α) (x : α) :
    pushBounded r (some limit) heap x =
      if limit ≤ heap.length then (insertLast r x heap).dropLast else insertLast r x heap := by
  have hlength := length_insertLast r x heap
  show (if decide (limit < (insertLast r x heap).length) = true then _ else _) = _
  by_cases hfull : limit ≤ heap.length
  · rw [if_pos (decide_eq_true (by omega)), if_pos hfull]
    rfl
  · rw [if_neg fun hlimit => by
      have hlimit := of_decide_eq_true hlimit
      omega, if_neg hfull]
    rfl

theorem pushBounded_sublist (limit : Option Nat) (heap : List α) (x : α) :
    (pushBounded r limit heap x).Sublist (insertLast r x heap) := by
  cases limit with
  | none => exact List.Sublist.refl _
  | some limit =>
    rw [pushBounded_some]
    split
    · exact List.dropLast_sublist _
    · exact List.Sublist.refl _

theorem length_pushBounded_le {limit : Nat} {heap : List α} (h : heap.length ≤ limit) (x : α) :
    (pushBounded r (some limit) heap x).length ≤ limit := by
  have hlength := length_insertLast r x heap
  rw [pushBounded_some]
  split
  · rw [List.length_dropLast]
    omega
  · omega

theorem pushBounded_takeUpTo (limit : Option Nat) (l : List α) (x : α) :
    pushBounded r limit (takeUpTo limit l) x = takeUpTo limit (insertLast r x l) := by
  cases limit with
  | none => rfl
  | some limit =>
    have hlength := length_insertLast r x (l.take limit)
    have hshort : (l.take limit).length ≤ limit := List.length_take_le limit l
    show pushBounded r (some limit) (l.take limit) x = (insertLast r x l).take limit
    rw [pushBounded_some, ← take_insertLast]
    by_cases hfull : limit ≤ (l.take limit).length
    · rw [if_pos hfull, List.dropLast_eq_take]
      congr 1
      omega
    · rw [if_neg hfull]
      exact (List.take_of_length_le (by omega)).symm

theorem perm_insertLast (x : α) (l : List α) : (insertLast r x l).Perm (l ++ [x]) := by
  induction l with
  | nil => exact List.Perm.refl _
  | cons b l ih =>
    unfold insertLast
    split
    · exact ih.cons b
    · exact (List.perm_append_singleton x (b :: l)).symm

theorem foldl_pushBounded_subperm (limit : Option Nat) (heap entries : List α) :
    (entries.foldl (pushBounded r limit) heap).Subperm (heap ++ entries) := by
  induction entries generalizing heap with
  | nil =>
    rw [List.append_nil]
    exact List.Subperm.refl heap
  | cons x entries ih =>
    rw [List.foldl_cons, List.append_cons]
    refine (ih (pushBounded r limit heap x)).trans ?_
    rw [List.subperm_append_right]
    exact (pushBounded_sublist r limit heap x).subperm.trans (perm_insertLast r x heap).subperm

theorem length_foldl_pushBounded_le {limit : Nat} {heap : List α} (h : heap.length ≤ limit)
    (entries : List α) : (entries.foldl (pushBounded r (some limit)) heap).length ≤ limit := by
  induction entries generalizing heap with
  | nil => exact h
  | cons x entries ih => exact ih (length_pushBounded_le r h x)

section Ranked

variable [IsTrans α r] [Std.Total r]

theorem pushBounded_sorted {heap : List α} (h : heap.Pairwise r) (limit : Option Nat) (x : α) :
    (pushBounded r limit heap x).Pairwise r := by
  have hinsert : insertLast r x heap = (heap ++ [x]).insertionSort r := by
    rw [insertionSort_concat, h.insertionSort_eq]
  have hsorted := List.pairwise_insertionSort r (heap ++ [x])
  rw [← hinsert] at hsorted
  exact hsorted.sublist (pushBounded_sublist r limit heap x)

theorem foldl_pushBounded_sorted {heap : List α} (h : heap.Pairwise r) (limit : Option Nat)
    (entries : List α) : (entries.foldl (pushBounded r limit) heap).Pairwise r := by
  induction entries generalizing heap with
  | nil => exact h
  | cons x entries ih => exact ih (pushBounded_sorted r h limit x)

theorem pushBounded_best (limit : Option Nat) (l : List α) (x : α) :
    pushBounded r limit (best r limit l) x = best r limit (l ++ [x]) := by
  rw [best, pushBounded_takeUpTo, ← insertionSort_concat, best]

theorem foldl_pushBounded_best (limit : Option Nat) (l entries : List α) :
    entries.foldl (pushBounded r limit) (best r limit l) = best r limit (l ++ entries) := by
  induction entries generalizing l with
  | nil => rw [List.append_nil, List.foldl_nil]
  | cons x entries ih => rw [List.foldl_cons, pushBounded_best, ih, ← List.append_cons]

theorem best_append_best (limit : Option Nat) (left right : List α) :
    best r limit (left ++ best r limit right) = best r limit (left ++ right) := by
  cases limit with
  | none =>
    show (left ++ right.insertionSort r).insertionSort r = _
    have hsorted := (List.pairwise_insertionSort r right).insertionSort_eq
    rw [best, insertionSort_append, hsorted, insertionSort_append]
    rfl
  | some limit => exact take_insertionSort_append_right r left right limit

theorem best_perm {l l' : List α} (limit : Option Nat)
    (hanti : ∀ a ∈ l, ∀ b ∈ l, r a b → r b a → a = b) (h : l.Perm l') :
    best r limit l = best r limit l' := by
  rw [best, insertionSort_eq_of_perm r hanti h, best]

/-- Where nothing ties, the order in which the second heap gives its entries is of no concern. -/
theorem mergeBounded_best (order : EntryOrder α) (limit : Option Nat) {left right : List α}
    (hanti : ∀ a ∈ left ++ right, ∀ b ∈ left ++ right, r a b → r b a → a = b) :
    mergeBounded r order limit (best r limit left) (best r limit right) =
      best r limit (left ++ right) := by
  have hsub : ∀ a ∈ left ++ order.entries (best r limit right), a ∈ left ++ right := by
    intro a ha
    rw [List.mem_append] at ha ⊢
    refine ha.imp_right fun ha => ?_
    have ha := (takeUpTo_sublist limit _).subset ((order.perm _).mem_iff.mp ha)
    exact (List.perm_insertionSort r right).mem_iff.mp ha
  rw [mergeBounded, foldl_pushBounded_best, ← best_append_best r limit left right]
  refine best_perm r limit (fun a ha b hb => hanti a (hsub a ha) b (hsub b hb)) ?_
  exact (order.perm _).append_left left

end Ranked

end ForStd.BinaryHeap
