import Ivygrep.ForStd.List
import Ivygrep.ForStd.Ranking
import Mathlib.Data.List.Perm.Basic
import Mathlib.Logic.Equiv.Defs

/-!
# Exchanging places

Some members of a list exchange their places. The exchange is a permutation of all entries, and one
member that fell back can be put back where it was.
-/

namespace ForStd

variable {α : Type*}

/-! ## The exchange -/

section

variable {olds news : List α}

theorem map_fst_zip_of_perm (h : olds.Perm news) : (olds.zip news).map Prod.fst = olds :=
  List.map_fst_zip (Nat.le_of_eq h.length_eq)

theorem mem_zip_iff_getElem? {a b : α} :
    (a, b) ∈ olds.zip news ↔ ∃ i : Nat, olds[i]? = some a ∧ news[i]? = some b := by
  rw [List.mem_iff_getElem?]
  simp [List.getElem?_zip_eq_some]

variable [DecidableEq α]

/-- The place that an entry takes: a member of `olds` that of `news` at its index, every other entry
    its own. -/
def placeOf (olds news : List α) (a : α) : α := ((olds.zip news).lookup a).getD a

theorem placeOf_of_mem_zip (h : olds.Perm news) (hnodup : olds.Nodup) {a b : α}
    (hmem : (a, b) ∈ olds.zip news) : placeOf olds news a = b := by
  rw [← map_fst_zip_of_perm h] at hnodup
  rw [placeOf, (lookup_eq_some_iff_of_nodup hnodup).mpr hmem, Option.getD_some]

theorem placeOf_of_not_mem {a : α} (h : a ∉ olds) : placeOf olds news a = a := by
  have hnone : (olds.zip news).lookup a = none := by
    rw [List.lookup_eq_none_iff]
    rintro ⟨old, new⟩ hentry
    have hmem : old ∈ olds := (List.of_mem_zip hentry).1
    have hne : a ≠ old := fun heq => h (heq ▸ hmem)
    simpa using hne
  rw [placeOf, hnone, Option.getD_none]

theorem placeOf_placeOf (h : olds.Perm news) (hnodup : olds.Nodup) (a : α) :
    placeOf news olds (placeOf olds news a) = a := by
  by_cases ha : a ∈ olds
  · obtain ⟨i, hi⟩ := List.mem_iff_getElem?.mp ha
    have hlt : i < news.length := h.length_eq ▸ (List.getElem?_eq_some_iff.mp hi).1
    have hnew : news[i]? = some news[i] := List.getElem?_eq_getElem hlt
    rw [placeOf_of_mem_zip h hnodup (mem_zip_iff_getElem?.mpr ⟨i, hi, hnew⟩)]
    exact placeOf_of_mem_zip h.symm (h.nodup_iff.mp hnodup)
      (mem_zip_iff_getElem?.mpr ⟨i, hnew, hi⟩)
  · rw [placeOf_of_not_mem ha, placeOf_of_not_mem fun hmem => ha (h.mem_iff.mpr hmem)]

/-- The exchange as a permutation. -/
def exchange (h : olds.Perm news) (hnodup : olds.Nodup) : Equiv.Perm α where
  toFun := placeOf olds news
  invFun := placeOf news olds
  left_inv := placeOf_placeOf h hnodup
  right_inv := placeOf_placeOf h.symm (h.nodup_iff.mp hnodup)

end

/-! ## Putting one entry back -/

/-- The entry at index `i` is moved to an index before it. -/
def putBack (l : List α) (i j : Nat) (a : α) : List α := (l.eraseIdx i).insertIdx j a

section

variable {l : List α} {i j : Nat} {a : α}

theorem putBack_perm (h : l[i]? = some a) (hj : j < i) : (putBack l i j a).Perm l := by
  obtain ⟨hi, rfl⟩ := List.getElem?_eq_some_iff.mp h
  have hlength : j ≤ (l.eraseIdx i).length := by
    rw [List.length_eraseIdx_of_lt hi]
    omega
  exact (List.perm_insertIdx _ _ hlength).trans (List.getElem_cons_eraseIdx_perm hi)

theorem getElem?_putBack (h : l[i]? = some a) (hj : j < i) : (putBack l i j a)[j]? = some a := by
  obtain ⟨hi, rfl⟩ := List.getElem?_eq_some_iff.mp h
  rw [putBack, List.getElem?_insertIdx_self, if_pos]
  rw [List.length_eraseIdx_of_lt hi]
  omega

/-- What stands before both indices stays. -/
theorem getElem?_putBack_of_lt {k : Nat} (hk : k < j) (hj : j < i) :
    (putBack l i j a)[k]? = l[k]? := by
  rw [putBack, List.getElem?_insertIdx_of_lt hk, List.getElem?_eraseIdx_of_lt (by omega)]

end

/-! ## The first entry of a sort -/

theorem head?_insertionSort {r : α → α → Prop} [DecidableRel r] [IsTrans α r] [Std.Total r] {a : α}
    {l : List α} (ha : a ∈ l) (hbest : ∀ b ∈ l, b ≠ a → ¬ r b a) :
    (l.insertionSort r).head? = some a := by
  have hsorted := List.pairwise_insertionSort r l
  have hperm := List.perm_insertionSort r l
  cases hsort : l.insertionSort r with
  | nil =>
    rw [hsort] at hperm
    rw [← hperm.nil_eq] at ha
    simp at ha
  | cons first rest =>
    rw [hsort] at hsorted hperm
    rw [List.head?_cons, Option.some.injEq]
    by_contra hne
    have hrest : a ∈ rest := (List.mem_cons.mp (hperm.mem_iff.mpr ha)).resolve_left (Ne.symm hne)
    exact hbest first (hperm.mem_iff.mp (by simp)) hne ((List.pairwise_cons.mp hsorted).1 a hrest)

/-- Lists of pairs with the same members, the first components of which descend, are the same when
    these are distinct. -/
theorem eq_of_descending {β : Type*} [LinearOrder β] {left right : List (β × α)} (hperm : left.Perm right)
    (hleft : (left.map Prod.fst).Pairwise fun a b => b ≤ a)
    (hright : (right.map Prod.fst).Pairwise fun a b => b ≤ a)
    (hnodup : (right.map Prod.fst).Nodup) : left = right := by
  rw [List.pairwise_map] at hleft hright
  refine hperm.eq_of_pairwise ?_ hleft hright
  intro a b ha hb hle hge
  exact List.inj_on_of_nodup_map hnodup (hperm.mem_iff.mp ha) hb (le_antisymm hge hle)

/-! ## The first entry of each key -/

section

variable {K : Type*} [DecidableEq K] {key : α → K}

theorem mem_keepFirst {l : List α} {a : α} :
    a ∈ keepFirst key l ↔ l.find? (key · = key a) = some a := by
  induction l with
  | nil => simp [keepFirst]
  | cons b l ih =>
    rw [keepFirst, List.mem_cons, List.mem_filter, ih, List.find?_cons]
    by_cases hkey : key b = key a
    · simp [hkey, eq_comm]
    · have hne : a ≠ b := by
        rintro rfl
        exact hkey rfl
      simp [hkey, hne, Ne.symm hkey]

theorem find?_keepFirst (l : List α) (k : K) :
    (keepFirst key l).find? (key · = k) = l.find? (key · = k) := by
  cases hfind : l.find? (key · = k) with
  | none =>
    rw [List.find?_eq_none] at hfind ⊢
    exact fun a ha => hfind a ((keepFirst_sublist key l).subset ha)
  | some a =>
    obtain rfl : key a = k := by simpa using List.find?_some hfind
    have hmem := mem_keepFirst.mpr hfind
    cases hfirst : (keepFirst key l).find? (key · = key a) with
    | none => simpa using List.find?_eq_none.mp hfirst a hmem
    | some b =>
      have hb := List.mem_of_find?_eq_some hfirst
      have hkey : key b = key a := by simpa using List.find?_some hfirst
      rw [(List.nodup_map_iff_inj_on ((keepFirst_nodup l).of_map _)).mp (keepFirst_nodup l) b hb a
        hmem hkey]

/-- When the first entries are mapped, so is the list of them. -/
theorem keepFirst_perm_map {l l' : List α} {f : α → α} (hkey : ∀ a, key (f a) = key a)
    (h : ∀ k, l'.find? (key · = k) = (l.find? (key · = k)).map f) :
    (keepFirst key l').Perm ((keepFirst key l).map f) := by
  have hnodup : (((keepFirst key l).map f).map key).Nodup := by
    rw [List.map_map, show key ∘ f = key from funext hkey]
    exact keepFirst_nodup l
  rw [List.perm_ext_iff_of_nodup ((keepFirst_nodup l').of_map _) (hnodup.of_map _)]
  intro a
  rw [mem_keepFirst, h, List.mem_map]
  constructor
  · intro ha
    obtain ⟨b, hb, rfl⟩ := Option.map_eq_some_iff.mp ha
    have hb' : l.find? (key · = key b) = some b := by
      have hkeyb : key b = key (f b) := by simpa using List.find?_some hb
      rwa [hkeyb]
    exact ⟨b, mem_keepFirst.mpr hb', rfl⟩
  · rintro ⟨b, hb, rfl⟩
    rw [hkey, mem_keepFirst.mp hb, Option.map_some]

end

end ForStd
