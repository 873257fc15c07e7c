import Mathlib

/-!
# Counting by what was touched

A set changes step by step. For each element that a step may have added or removed, a list keeps
whether it was in the set at the beginning. The size of the set now is then its size at the
beginning with a correction for each element of the list.
-/

namespace ForStd

variable {α β : Type*} [DecidableEq α]

/-- A value for a key that has none yet. -/
def orInsert (entries : List (α × β)) (key : α) (value : β) : List (α × β) :=
  if key ∈ entries.map Prod.fst then entries else entries ++ [(key, value)]

theorem map_fst_orInsert_nodup {entries : List (α × β)} (h : (entries.map Prod.fst).Nodup)
    (key : α) (value : β) : ((orInsert entries key value).map Prod.fst).Nodup := by
  unfold orInsert
  split
  · exact h
  · next hnew =>
    rw [List.map_append, List.nodup_append]
    refine ⟨h, List.nodup_singleton _, ?_⟩
    rintro a hmem b hsingle rfl
    obtain rfl := List.mem_singleton.mp hsingle
    exact hnew hmem

theorem mem_map_fst_orInsert {entries : List (α × β)} {key a : α} {value : β} :
    a ∈ (orInsert entries key value).map Prod.fst ↔ a ∈ entries.map Prod.fst ∨ a = key := by
  unfold orInsert
  split
  · next hold =>
    refine ⟨.inl, ?_⟩
    rintro (hmem | rfl)
    · exact hmem
    · exact hold
  · rw [List.map_append, List.mem_append, List.map_singleton, List.mem_singleton]

/-- The list knows of every element that the set has gained or lost since it was `before`. -/
structure Touched (before now : Finset α) (entries : List (α × Bool)) : Prop where
  nodup : (entries.map Prod.fst).Nodup
  initial : ∀ entry ∈ entries, (entry.2 = true ↔ entry.1 ∈ before)
  untouched : ∀ a, a ∉ entries.map Prod.fst → (a ∈ now ↔ a ∈ before)

namespace Touched

variable {before now next : Finset α} {entries : List (α × Bool)}

omit [DecidableEq α] in
theorem nil : Touched now now ([] : List (α × Bool)) :=
  ⟨List.nodup_nil, fun _ h => absurd h List.not_mem_nil, fun _ _ => Iff.rfl⟩

/-- An element is touched while the set still has it, or still lacks it, as at the beginning. -/
theorem orInsert (h : Touched before now entries) {a : α} {present : Bool}
    (hpresent : a ∉ entries.map Prod.fst → (present = true ↔ a ∈ now)) :
    Touched before now (orInsert entries a present) where
  nodup := map_fst_orInsert_nodup h.nodup a present
  initial := by
    unfold ForStd.orInsert
    split
    · exact h.initial
    · next hnew =>
      intro entry hentry
      rcases List.mem_append.mp hentry with hold | hsingle
      · exact h.initial entry hold
      · rw [List.mem_singleton.mp hsingle, hpresent hnew, h.untouched a hnew]
  untouched := by
    intro b hb
    rw [mem_map_fst_orInsert, not_or] at hb
    exact h.untouched b hb.1

omit [DecidableEq α] in
/-- The set may change at the elements that were touched. -/
theorem change (h : Touched before now entries)
    (hsame : ∀ a, a ∉ entries.map Prod.fst → (a ∈ next ↔ a ∈ now)) :
    Touched before next entries :=
  ⟨h.nodup, h.initial, fun a ha => (hsame a ha).trans (h.untouched a ha)⟩

/-- The elements that were touched correct the size of the set. -/
theorem card_eq {present : α → Bool} (hpresent : ∀ a, present a = true ↔ a ∈ now)
    (h : Touched before now entries) : (now.card : Int) =
      before.card + (entries.map fun entry => (present entry.1).toInt - entry.2.toInt).sum := by
  obtain ⟨hnodup, hinitial, huntouched⟩ := h
  induction entries generalizing before with
  | nil =>
    rw [List.map_nil, List.sum_nil, Int.add_zero]
    congr 2
    ext a
    exact huntouched a List.not_mem_nil
  | cons entry entries ih =>
    obtain ⟨a, initially⟩ := entry
    rw [List.map_cons, List.nodup_cons] at hnodup
    have hbefore := hinitial (a, initially) List.mem_cons_self
    dsimp only at hnodup hbefore
    -- The set at the beginning, corrected at this element.
    have hcorrected := @ih (if a ∈ now then insert a before else before.erase a) hnodup.2
      (by
        intro other hother
        have hne : other.1 ≠ a := by
          intro heq
          have hmem : other.1 ∈ entries.map Prod.fst := List.mem_map_of_mem hother
          exact hnodup.1 (heq ▸ hmem)
        rw [hinitial other (List.mem_cons_of_mem _ hother)]
        split
        · rw [Finset.mem_insert, or_iff_right hne]
        · rw [Finset.mem_erase, and_iff_right hne])
      (by
        intro b hb
        by_cases hba : b = a
        · subst hba
          split
          · next hnow => exact iff_of_true hnow (Finset.mem_insert_self _ _)
          · next hnow => exact iff_of_false hnow (Finset.notMem_erase _ _)
        · have hother : b ∉ ((a, initially) :: entries).map Prod.fst := by
            rw [List.map_cons, List.mem_cons, not_or]
            exact ⟨hba, hb⟩
          rw [huntouched b hother]
          split
          · rw [Finset.mem_insert, or_iff_right hba]
          · rw [Finset.mem_erase, and_iff_right hba])
    rw [hcorrected, List.map_cons, List.sum_cons, ← Int.add_assoc]
    congr 1
    dsimp only
    cases initially with
    | true =>
      have hmem := hbefore.mp rfl
      split
      · next hnow =>
        rw [Finset.insert_eq_of_mem hmem, (hpresent a).mpr hnow, Int.sub_self, Int.add_zero]
      · next hnow =>
        have hpositive := Finset.card_pos.mpr ⟨a, hmem⟩
        rw [Finset.card_erase_of_mem hmem, Bool.eq_false_iff.mpr (mt (hpresent a).mp hnow)]
        simp only [Bool.toInt_false, Bool.toInt_true]
        omega
    | false =>
      have hnotMem := mt hbefore.mpr Bool.false_ne_true
      split
      · next hnow =>
        rw [Finset.card_insert_of_notMem hnotMem, (hpresent a).mpr hnow]
        rfl
      · next hnow =>
        rw [Finset.erase_eq_of_notMem hnotMem, Bool.eq_false_iff.mpr (mt (hpresent a).mp hnow),
          Int.sub_self, Int.add_zero]

end Touched

end ForStd
