import Ivygrep.ForStd.Ranking

/-!
# Filling a quota from several lists

Lists are taken one after another until a number of entries is reached. Each list is cut to the room
that is left before the entries seen in an earlier list are dropped. This says when that loses none
of the first entries with distinct keys.
-/

namespace ForStd

variable {α K : Type*}

/-! ## Prefixes and sublists -/

/-- A sublist of distinct entries is told by its members. -/
theorem filter_mem_eq_of_sublist [DecidableEq α] {part whole : List α} (hnodup : whole.Nodup)
    (h : part.Sublist whole) : whole.filter (· ∈ part) = part := by
  induction h with
  | slnil => rfl
  | cons a h ih =>
    rw [List.nodup_cons] at hnodup
    rw [List.filter_cons, if_neg (by simpa using fun hmem => hnodup.1 (h.subset hmem)),
      ih hnodup.2]
  | @cons_cons part whole a h ih =>
    rw [List.nodup_cons] at hnodup
    have hrest : whole.filter (· ∈ a :: part) = whole.filter (· ∈ part) := by
      refine List.filter_congr fun b hb => ?_
      have hne : b ≠ a := fun heq => hnodup.1 (heq ▸ hb)
      simp [hne]
    rw [List.filter_cons, if_pos (by simp), hrest, ih hnodup.2]

/-- A part that is no longer than the first entries and has all of them is the first entries. -/
theorem eq_take_of_sublist {part whole : List α} {n : Nat} (hnodup : whole.Nodup)
    (h : part.Sublist whole) (hlength : part.length ≤ n) (hmem : ∀ a ∈ whole.take n, a ∈ part) :
    part = whole.take n := by
  classical
  have htake := filter_mem_eq_of_sublist hnodup (List.take_sublist n whole)
  have hpart := filter_mem_eq_of_sublist hnodup h
  have hnodupTake := hnodup.sublist (List.take_sublist n whole)
  have hsub : (whole.take n).Subperm part := hnodupTake.subperm hmem
  by_cases hlong : whole.length ≤ n
  · rw [List.take_of_length_le hlong] at hsub ⊢
    exact h.eq_of_length_le hsub.length_le
  · have hperm : (whole.take n).Perm part := hsub.perm_of_length_le (by simp; omega)
    rw [← hpart, ← htake]
    refine List.filter_congr fun a _ => ?_
    simp [hperm.mem_iff]

/-- What takes over at most one entry of each that is added passes through every prefix. -/
theorem exists_take_of_grow {β : Type*} {f : List α → List β} (hnil : f [] = [])
    (hgrow : ∀ l a, ∃ b : Option β, f (l ++ [a]) = f l ++ b.toList) (l : List α) :
    ((∀ k, ∃ m, f (l.take k) = (f l).take m) ∧ ∀ m, ∃ k, (f l).take m = f (l.take k)) := by
  induction l using List.reverseRecOn with
  | nil => simp [hnil]
  | append_singleton l a ih =>
    obtain ⟨b, hb⟩ := hgrow l a
    obtain ⟨hfirst, htake⟩ := ih
    constructor
    · intro k
      by_cases hk : k ≤ l.length
      · obtain ⟨m, hm⟩ := hfirst k
        refine ⟨min m (f l).length, ?_⟩
        rw [List.take_append_of_le_length hk, hm, hb,
          List.take_append_of_le_length (Nat.min_le_right _ _), List.take_eq_take_min]
      · have hlong : (l ++ [a]).length ≤ k := by
          simp
          omega
        exact ⟨(f (l ++ [a])).length, by rw [List.take_of_length_le hlong, List.take_length]⟩
    · intro m
      by_cases hm : m ≤ (f l).length
      · obtain ⟨k, hk⟩ := htake m
        refine ⟨min k l.length, ?_⟩
        rw [hb, List.take_append_of_le_length hm, hk,
          List.take_append_of_le_length (Nat.min_le_right _ _), List.take_eq_take_min]
      · have hlong : (f (l ++ [a])).length ≤ m := by
          cases b <;> simp [hb] <;> omega
        exact ⟨(l ++ [a]).length, by rw [List.take_of_length_le hlong, List.take_length]⟩

variable [DecidableEq K] (key : α → K)

variable {key} in
theorem retainFirst_append (seen : List K) (left right : List α) :
    retainFirst key seen (left ++ right) =
      retainFirst key seen left ++ retainFirst key ((left.map key).reverse ++ seen) right := by
  induction left generalizing seen with
  | nil => simp [retainFirst]
  | cons a left ih =>
    rw [List.cons_append, retainFirst, retainFirst]
    split
    · next hseen =>
      rw [ih]
      congr 1
      -- A key that is seen twice is seen.
      rw [retainFirst_eq, retainFirst_eq]
      refine List.filter_congr fun b _ => ?_
      by_cases hb : key b = key a <;> simp [hb, hseen]
    · rw [ih]
      simp

variable {key} in
/-- Entries of distinct keys are kept unless they were seen before. -/
theorem retainFirst_of_nodup {l : List α} (h : (l.map key).Nodup) (seen : List K) :
    retainFirst key seen l = l.filter (key · ∉ seen) := by
  rw [retainFirst_eq, keepFirst_of_nodup h]

variable {key} in
theorem retainFirst_congr {seen seen' : List K} (h : ∀ k, k ∈ seen ↔ k ∈ seen') (l : List α) :
    retainFirst key seen l = retainFirst key seen' l := by
  simp only [retainFirst_eq, h]

variable {key} in
theorem mem_map_keepFirst {l : List α} {k : K} : k ∈ (keepFirst key l).map key ↔ k ∈ l.map key := by
  constructor
  · intro h
    exact (List.Sublist.map key (keepFirst_sublist key l)).subset h
  · intro h
    induction l with
    | nil => exact h
    | cons a l ih =>
      rw [keepFirst, List.map_cons]
      by_cases hk : k = key a
      · simp [hk]
      · have hrest := ih ((List.mem_cons.mp h).resolve_left hk)
        obtain ⟨b, hb, rfl⟩ := List.mem_map.mp hrest
        refine List.mem_cons_of_mem _ (List.mem_map_of_mem (List.mem_filter.mpr ⟨hb, ?_⟩))
        simpa using hk

/-- The first entries of each key in two lists. -/
theorem keepFirst_append (left right : List α) :
    keepFirst key (left ++ right) =
      keepFirst key left ++ retainFirst key ((keepFirst key left).map key) right := by
  rw [← retainFirst_nil, retainFirst_append, retainFirst_nil]
  congr 1
  refine retainFirst_congr (fun k => ?_) right
  rw [mem_map_keepFirst]
  simp

/-! ## The quota -/

/-- Takes from each list what there is room for, and keeps the entries of new keys. -/
def fillQuota (n : Nat) (acc : List α) : List (List α) → List α
  | [] => acc
  | list :: lists =>
    if n - acc.length = 0 then acc
    else fillQuota n (acc ++ retainFirst key (acc.map key) (list.take (n - acc.length))) lists

variable {key}

theorem fillQuota_full {n : Nat} {acc : List α} (h : n ≤ acc.length) (lists : List (List α)) :
    fillQuota key n acc lists = acc := by
  cases lists with
  | nil => rfl
  | cons list lists => rw [fillQuota, if_pos (by omega)]

theorem fillQuota_cons (n : Nat) (acc list : List α) (lists : List (List α)) :
    fillQuota key n acc (list :: lists) = fillQuota key n (fillQuota key n acc [list]) lists := by
  by_cases hfull : n ≤ acc.length
  · simp only [fillQuota_full hfull]
  · have hroom : n - acc.length ≠ 0 := by omega
    simp only [fillQuota, if_neg hroom]

theorem fillQuota_concat (n : Nat) (acc : List α) (lists : List (List α)) (list : List α) :
    fillQuota key n acc (lists ++ [list]) =
      fillQuota key n (fillQuota key n acc lists) [list] := by
  induction lists generalizing acc with
  | nil => rfl
  | cons first lists ih => rw [List.cons_append, fillQuota_cons, ih, ← fillQuota_cons]

/-- One more list loses none of its first new entries exactly when each of them is among what is
    taken of the list. `taken` is what is left of a list that was shortened before. -/
theorem fillQuota_step {n : Nat} {distinct list taken : List α} (hsub : taken.Sublist list)
    (hnodup : (list.map key).Nodup) :
    fillQuota key n (distinct.take n) [taken] =
        (distinct ++ retainFirst key (distinct.map key) list).take n ↔
      ∀ a ∈ (retainFirst key (distinct.map key) list).take (n - distinct.length),
        a ∈ taken.take (n - distinct.length) := by
  by_cases hfull : n ≤ distinct.length
  · rw [fillQuota_full (by simp; omega), List.take_append_of_le_length hfull,
      Nat.sub_eq_zero_of_le hfull]
    simp
  · have hshort : distinct.take n = distinct := List.take_of_length_le (by omega)
    have hsubTake : (taken.take (n - distinct.length)).Sublist list :=
      (List.take_sublist _ _).trans hsub
    rw [hshort, fillQuota, if_neg (by omega), fillQuota, List.take_append, hshort,
      List.append_cancel_left_eq, retainFirst_of_nodup (hnodup.sublist (hsubTake.map key)),
      retainFirst_of_nodup hnodup]
    constructor
    · intro heq a ha
      rw [← heq] at ha
      exact List.mem_of_mem_filter ha
    · intro hmem
      refine eq_take_of_sublist (hnodup.of_map.filter _) (hsubTake.filter _) ?_ ?_
      · exact (List.length_filter_le _ _).trans (List.length_take_le _ _)
      · intro a ha
        have hkept := List.mem_of_mem_take ha
        exact List.mem_filter.mpr ⟨hmem a ha, (List.mem_filter.mp hkept).2⟩

variable (key) in
/-- Each of the first new entries of a list, up to the room that the lists before it leave, is among
    what is taken of the list. A list comes with what was left of it before. -/
def NoneDisplaced (n : Nat) (lists : List (List α × List α)) : Prop :=
  ∀ i list taken, lists[i]? = some (list, taken) →
    let distinct := keepFirst key ((lists.take i).flatMap Prod.fst)
    ∀ a ∈ (retainFirst key (distinct.map key) list).take (n - distinct.length),
      a ∈ taken.take (n - distinct.length)

/-- The quota is filled with the first entries of distinct keys, after each list, exactly when no
    entry is displaced. -/
theorem fillQuota_exact {n : Nat} {lists : List (List α × List α)}
    (h : ∀ list taken, (list, taken) ∈ lists → taken.Sublist list ∧ (list.map key).Nodup) :
    (∀ m, fillQuota key n [] ((lists.take m).map Prod.snd) =
        (keepFirst key ((lists.take m).flatMap Prod.fst)).take n) ↔
      NoneDisplaced key n lists := by
  have hstep : ∀ m list taken, lists[m]? = some (list, taken) →
      fillQuota key n [] ((lists.take m).map Prod.snd) =
        (keepFirst key ((lists.take m).flatMap Prod.fst)).take n →
      (fillQuota key n [] ((lists.take (m + 1)).map Prod.snd) =
          (keepFirst key ((lists.take (m + 1)).flatMap Prod.fst)).take n ↔
        ∀ a ∈ (retainFirst key ((keepFirst key ((lists.take m).flatMap Prod.fst)).map key) list).take
            (n - (keepFirst key ((lists.take m).flatMap Prod.fst)).length),
          a ∈ taken.take (n - (keepFirst key ((lists.take m).flatMap Prod.fst)).length)) := by
    intro m list taken hlist hbefore
    obtain ⟨hsub, hnodup⟩ := h list taken (List.mem_of_getElem? hlist)
    rw [List.take_add_one, hlist, Option.toList_some, List.map_append, List.map_singleton,
      fillQuota_concat, hbefore, List.flatMap_append, List.flatMap_singleton, keepFirst_append]
    exact fillQuota_step hsub hnodup
  constructor
  · intro hall m list taken hlist
    exact (hstep m list taken hlist (hall m)).mp (hall (m + 1))
  · intro hdisplaced m
    induction m with
    | zero => simp [fillQuota, keepFirst]
    | succ m ih =>
      cases hlist : lists[m]? with
      | none =>
        rw [List.take_add_one, hlist, Option.toList_none, List.append_nil]
        exact ih
      | some pair =>
        obtain ⟨list, taken⟩ := pair
        exact (hstep m list taken hlist ih).mpr (hdisplaced m list taken hlist)

end ForStd
