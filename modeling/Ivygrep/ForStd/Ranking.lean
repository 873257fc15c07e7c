import Mathlib

/-!
# Ranked lists

A stable sort of a list that has grown by one entry inserts it behind the entries it ties
with. When only the first entry of each key is kept, the insertion goes into the shorter list,
and the first `k` entries of the result depend on the first `k` of that list alone.
-/

namespace ForStd

variable {α K : Type*} (r : α → α → Prop) [DecidableRel r]

/-! ## Insertion behind ties -/

/-- Inserts an entry behind all that rank at least as high. -/
def insertLast (x : α) : List α → List α
  | [] => [x]
  | b :: l => if r b x then b :: insertLast x l else x :: b :: l

theorem orderedInsert_insertLast [IsTrans α r] [Std.Total r] (a x : α) (l : List α) :
    (insertLast r x l).orderedInsert r a = insertLast r x (l.orderedInsert r a) := by
  induction l with
  | nil =>
    by_cases hax : r a x
    · simp [insertLast, hax]
    · simp [insertLast, hax]
  | cons b l ih =>
    by_cases hbx : r b x
    · by_cases hab : r a b
      · have hax : r a x := trans_of r hab hbx
        simp [insertLast, hbx, hab, hax]
      · simp [insertLast, hbx, hab, ih]
    · by_cases hab : r a b
      · by_cases hax : r a x
        · simp [insertLast, hbx, hab, hax]
        · simp [insertLast, hbx, hab, hax]
      · have hba : r b a := (total_of r a b).resolve_left hab
        have hax : ¬ r a x := fun hax => hbx (trans_of r hba hax)
        simp [insertLast, hbx, hab, hax]

/-- A stable sort of a list with one more entry. -/
theorem insertionSort_concat [IsTrans α r] [Std.Total r] (l : List α) (x : α) :
    (l ++ [x]).insertionSort r = insertLast r x (l.insertionSort r) := by
  induction l with
  | nil => rfl
  | cons a l ih =>
    rw [List.cons_append, List.insertionSort_cons, ih, List.insertionSort_cons,
      orderedInsert_insertLast]

theorem sublist_insertLast (x : α) (l : List α) : l.Sublist (insertLast r x l) := by
  induction l with
  | nil => exact List.nil_sublist _
  | cons b l ih =>
    unfold insertLast
    split
    · exact ih.cons_cons b
    · exact List.sublist_cons_self x _

/-- More entries do not change the order of those that are there. -/
theorem insertionSort_append_sublist [IsTrans α r] [Std.Total r] (l entries : List α) :
    (l.insertionSort r).Sublist ((l ++ entries).insertionSort r) := by
  induction entries using List.reverseRecOn with
  | nil => rw [List.append_nil]
  | append_singleton entries x ih =>
    rw [← List.append_assoc, insertionSort_concat]
    exact ih.trans (sublist_insertLast r x _)

/-! ## The first entries of a sort -/

/-- An entry dropped before an insertion is not among the first after it. -/
theorem take_insertLast (x : α) (l : List α) (n : Nat) :
    (insertLast r x (l.take n)).take n = (insertLast r x l).take n := by
  induction l generalizing n with
  | nil => simp
  | cons b l ih =>
    cases n with
    | zero => simp
    | succ n =>
      rw [List.take_succ_cons]
      unfold insertLast
      by_cases hbx : r b x
      · rw [if_pos hbx, if_pos hbx, List.take_succ_cons, List.take_succ_cons, ih]
      · rw [if_neg hbx, if_neg hbx, List.take_succ_cons, List.take_succ_cons]
        cases n with
        | zero => rfl
        | succ n => rw [List.take_succ_cons, List.take_succ_cons, List.take_take, Nat.min_eq_left (by omega)]

/-- An entry that ranks below the first ones changes nothing about them. -/
theorem take_insertLast_of_forall {x : α} {l : List α} {n : Nat} (h : ∀ b ∈ l.take n, r b x)
    (hlength : n ≤ l.length) : (insertLast r x l).take n = l.take n := by
  induction l generalizing n with
  | nil =>
    obtain rfl : n = 0 := Nat.le_zero.mp hlength
    rfl
  | cons b l ih =>
    cases n with
    | zero => rfl
    | succ n =>
      rw [List.take_succ_cons] at h
      unfold insertLast
      rw [if_pos (h b (List.mem_cons_self ..)), List.take_succ_cons, List.take_succ_cons,
        ih (fun c hc => h c (List.mem_cons_of_mem _ hc)) (Nat.le_of_succ_le_succ hlength)]

theorem insertLast_concat_of_not {x w : α} (h : ¬ r w x) (l : List α) :
    insertLast r x (l ++ [w]) = insertLast r x l ++ [w] := by
  induction l with
  | nil =>
    show (if r w x then _ else _) = _
    rw [if_neg h]
    rfl
  | cons b l ih =>
    rw [List.cons_append]
    unfold insertLast
    by_cases hbx : r b x
    · rw [if_pos hbx, if_pos hbx, ih, List.cons_append]
    · rw [if_neg hbx, if_neg hbx]
      rfl

theorem length_insertLast (x : α) (l : List α) : (insertLast r x l).length = l.length + 1 := by
  induction l with
  | nil => rfl
  | cons b l ih =>
    unfold insertLast
    by_cases hbx : r b x
    · rw [if_pos hbx, List.length_cons, ih, List.length_cons]
    · rw [if_neg hbx]
      rfl

theorem take_insertionSort_append [IsTrans α r] [Std.Total r] (l entries : List α) (n : Nat) :
    (((l.insertionSort r).take n ++ entries).insertionSort r).take n =
      ((l ++ entries).insertionSort r).take n := by
  induction entries using List.reverseRecOn with
  | nil =>
    have hsorted : ((l.insertionSort r).take n).Pairwise r :=
      (List.pairwise_insertionSort r l).sublist (List.take_sublist n _)
    rw [List.append_nil, List.append_nil, hsorted.insertionSort_eq, List.take_take, Nat.min_self]
  | append_singleton entries x ih =>
    rw [← List.append_assoc, ← List.append_assoc, insertionSort_concat, insertionSort_concat,
      ← take_insertLast, ih, take_insertLast]

/-- An entry dropped before an insertion in front of its ties is not among the first after it. -/
theorem take_orderedInsert (x : α) (l : List α) (n : Nat) :
    ((l.take n).orderedInsert r x).take n = (l.orderedInsert r x).take n := by
  induction l generalizing n with
  | nil => simp
  | cons b l ih =>
    cases n with
    | zero => simp
    | succ n =>
      rw [List.take_succ_cons, List.orderedInsert_cons, List.orderedInsert_cons]
      by_cases hxb : r x b
      · rw [if_pos hxb, if_pos hxb, List.take_succ_cons, List.take_succ_cons]
        cases n with
        | zero => rfl
        | succ n =>
          rw [List.take_succ_cons, List.take_succ_cons, List.take_take, Nat.min_eq_left (by omega)]
      · rw [if_neg hxb, if_neg hxb, List.take_succ_cons, List.take_succ_cons, ih]

theorem insertionSort_append (l entries : List α) :
    (l ++ entries).insertionSort r = l.foldr (List.orderedInsert r) (entries.insertionSort r) := by
  induction l with
  | nil => rfl
  | cons a l ih => rw [List.cons_append, List.insertionSort_cons, ih, List.foldr_cons]

theorem take_insertionSort_append_right [IsTrans α r] [Std.Total r] (l entries : List α)
    (n : Nat) : ((l ++ (entries.insertionSort r).take n).insertionSort r).take n =
      ((l ++ entries).insertionSort r).take n := by
  have hsorted : ((entries.insertionSort r).take n).Pairwise r :=
    (List.pairwise_insertionSort r entries).sublist (List.take_sublist n _)
  rw [insertionSort_append, insertionSort_append, hsorted.insertionSort_eq]
  induction l with
  | nil => rw [List.foldr_nil, List.foldr_nil, List.take_take, Nat.min_self]
  | cons a l ih =>
    rw [List.foldr_cons, List.foldr_cons, ← take_orderedInsert, ih, take_orderedInsert]

/-- Two truncated sorts hold what the truncated sort of both lists needs. -/
theorem take_insertionSort_append_take [IsTrans α r] [Std.Total r] (left right : List α)
    (n : Nat) : (((left.insertionSort r).take n ++ (right.insertionSort r).take n).insertionSort
      r).take n = ((left ++ right).insertionSort r).take n := by
  rw [take_insertionSort_append, take_insertionSort_append_right]

/-- The first entries of all parts together come from the first of every part. -/
theorem take_insertionSort_flatMap [IsTrans α r] [Std.Total r] (parts : List (List α)) (n : Nat) :
    ((parts.flatMap fun part => (part.insertionSort r).take n).insertionSort r).take n =
      (parts.flatten.insertionSort r).take n := by
  induction parts with
  | nil => rfl
  | cons part parts ih =>
    rw [List.flatMap_cons, List.flatten_cons, take_insertionSort_append,
      ← take_insertionSort_append_right, ih, take_insertionSort_append_right]

theorem orderedInsert_congr {s : α → α → Prop} [DecidableRel s] {a : α} {l : List α}
    (h : ∀ b ∈ l, r a b ↔ s a b) : l.orderedInsert r a = l.orderedInsert s a := by
  induction l with
  | nil => rfl
  | cons b l ih =>
    have hfirst := h b (List.mem_cons_self ..)
    have hrest := ih fun c hc => h c (List.mem_cons_of_mem _ hc)
    simp only [List.orderedInsert_cons, hfirst, hrest]

/-- Two relations that agree on every entry and those behind it sort a list alike. -/
theorem insertionSort_congr {s : α → α → Prop} [DecidableRel s] {l : List α}
    (h : l.Pairwise fun a b => r a b ↔ s a b) : l.insertionSort r = l.insertionSort s := by
  induction l with
  | nil => rfl
  | cons a l ih =>
    obtain ⟨hfirst, hrest⟩ := List.pairwise_cons.mp h
    rw [List.insertionSort_cons, List.insertionSort_cons, ih hrest]
    exact orderedInsert_congr r fun b hb => hfirst b ((List.mem_insertionSort s).mp hb)

section Antisymm

variable [IsTrans α r] [Std.Total r]

/-- Where no two members tie, the order of the list does not matter. -/
theorem insertionSort_eq_of_perm {l l' : List α}
    (hanti : ∀ a ∈ l, ∀ b ∈ l, r a b → r b a → a = b) (h : l.Perm l') :
    l.insertionSort r = l'.insertionSort r := by
  have hperm := ((List.perm_insertionSort r l).trans h).trans (List.perm_insertionSort r l').symm
  refine hperm.eq_of_pairwise ?_ (List.pairwise_insertionSort r l)
    (List.pairwise_insertionSort r l')
  intro a b ha hb
  exact hanti a ((List.mem_insertionSort r).mp ha) b (h.mem_iff.mpr ((List.mem_insertionSort r).mp hb))

omit [Std.Total r] in
theorem filter_orderedInsert {p : α → Bool} {a : α} {l : List α} (hsorted : l.Pairwise r) :
    (l.orderedInsert r a).filter p =
      if p a then (l.filter p).orderedInsert r a else l.filter p := by
  induction l with
  | nil => simp [List.filter_cons]
  | cons b l ih =>
    rw [List.pairwise_cons] at hsorted
    by_cases hab : r a b
    · rw [List.orderedInsert_cons_of_le r l hab, List.filter_cons]
      split
      · -- All that is kept ranks behind the new entry.
        have hall : ∀ c ∈ (b :: l).filter p, r a c := by
          intro c hc
          rcases List.mem_cons.mp (List.mem_filter.mp hc).1 with rfl | hmem
          · exact hab
          · exact trans_of r hab (hsorted.1 c hmem)
        cases hfilter : (b :: l).filter p with
        | nil => rfl
        | cons c kept => rw [List.orderedInsert_cons_of_le r kept (hall c (by simp [hfilter]))]
      · rfl
    · rw [List.orderedInsert_of_not_le r l hab, List.filter_cons, ih hsorted.2, List.filter_cons]
      by_cases hb : p b
      · by_cases ha : p a
        · simp [ha, hb, hab]
        · simp [ha, hb]
      · simp [hb]

/-- The entries of one kind are sorted among themselves, ties included. -/
theorem filter_insertionSort (p : α → Bool) (l : List α) :
    (l.filter p).insertionSort r = (l.insertionSort r).filter p := by
  induction l with
  | nil => rfl
  | cons a l ih =>
    rw [List.insertionSort_cons, filter_orderedInsert r (List.pairwise_insertionSort r l), ← ih,
      List.filter_cons]
    split <;> simp

end Antisymm

/-- When the first entries pass a filter, they are the first that pass it. -/
theorem take_filter_of_forall {p : α → Bool} {l : List α} {n : Nat}
    (h : ∀ a ∈ l.take n, p a = true) : (l.filter p).take n = l.take n := by
  induction l generalizing n with
  | nil => rfl
  | cons a l ih =>
    cases n with
    | zero => simp
    | succ n =>
      rw [List.take_succ_cons] at h
      rw [List.filter_cons, if_pos (h a (List.mem_cons_self ..)), List.take_succ_cons,
        List.take_succ_cons, ih fun b hb => h b (List.mem_cons_of_mem _ hb)]

/-! ## One entry for each key -/

section Keyed

variable [DecidableEq K] (key : α → K)

/-- The first entry of every key. -/
def keepFirst : List α → List α
  | [] => []
  | a :: l => a :: (keepFirst l).filter (key · ≠ key a)

/-- Inserts an entry behind all that rank at least as high, and keeps the first of its key. -/
def place (x : α) : List α → List α
  | [] => [x]
  | b :: l =>
    if key b = key x then if r b x then b :: l else x :: l
    else if r b x then b :: place x l
    else x :: b :: l.filter (key · ≠ key x)

variable {r key}

variable (key) in
theorem keepFirst_sublist (l : List α) : (keepFirst key l).Sublist l := by
  induction l with
  | nil => exact .slnil
  | cons a l ih => exact (List.filter_sublist.trans ih).cons_cons a

theorem keepFirst_nodup (l : List α) : ((keepFirst key l).map key).Nodup := by
  induction l with
  | nil => exact List.nodup_nil
  | cons a l ih =>
    rw [keepFirst, List.map_cons, List.nodup_cons]
    refine ⟨?_, ih.sublist (List.filter_sublist.map key)⟩
    intro hmem
    obtain ⟨b, hb, hkey⟩ := List.mem_map.mp hmem
    have hne : key b ≠ key a := by simpa using List.of_mem_filter hb
    exact hne hkey

/-- Nothing is dropped from a list of distinct keys. -/
theorem keepFirst_of_nodup {l : List α} (h : (l.map key).Nodup) : keepFirst key l = l := by
  induction l with
  | nil => rfl
  | cons a l ih =>
    rw [List.map_cons, List.nodup_cons] at h
    rw [keepFirst, ih h.2, List.filter_eq_self.mpr]
    intro b hb
    have hne : key b ≠ key a := fun hkey => h.1 (hkey ▸ List.mem_map_of_mem hb)
    simpa using hne

theorem place_filter_key (x : α) (l : List α) :
    (place r key x l).filter (key · ≠ key x) = l.filter (key · ≠ key x) := by
  induction l with
  | nil => simp [place]
  | cons b l ih =>
    unfold place
    by_cases hkey : key b = key x
    · by_cases hbx : r b x <;> simp [hkey, hbx]
    · by_cases hbx : r b x
      · simp only [hkey, hbx, if_false, if_true]
        rw [List.filter_cons, List.filter_cons, ih]
      · simp [hkey, hbx]

/-- An entry that ranks above all goes to the front. -/
theorem place_of_forall_not {x : α} {l : List α} (h : ∀ b ∈ l, ¬ r b x)
    (hnodup : (l.map key).Nodup) :
    place r key x l = x :: l.filter (key · ≠ key x) := by
  cases l with
  | nil => rfl
  | cons b l =>
    have hbx := h b (List.mem_cons_self ..)
    by_cases hkey : key b = key x
    · rw [List.map_cons, List.nodup_cons] at hnodup
      have hrest : l.filter (key · ≠ key x) = l := by
        refine List.filter_eq_self.mpr fun c hc => ?_
        have hne : key c ≠ key x := fun hcx =>
          hnodup.1 (hkey.trans hcx.symm ▸ List.mem_map_of_mem hc)
        simpa using hne
      unfold place
      rw [if_pos hkey, if_neg hbx, List.filter_cons, if_neg (by simp [hkey]), hrest]
    · unfold place
      rw [if_neg hkey, if_neg hbx, List.filter_cons, if_pos (by simpa using hkey)]

/-- Dropping another key commutes with the insertion into a ranked list. -/
theorem place_filter [IsTrans α r] {x : α} {k : K} (hk : k ≠ key x) {l : List α}
    (hsorted : l.Pairwise r) (hnodup : (l.map key).Nodup) :
    (place r key x l).filter (key · ≠ k) = place r key x (l.filter (key · ≠ k)) := by
  induction l with
  | nil => simp [place, hk.symm]
  | cons b l ih =>
    have hrest : (l.map key).Nodup := (List.nodup_cons.mp hnodup).2
    have ih := ih hsorted.of_cons hrest
    by_cases hkey : key b = key x
    · have hbk : key b ≠ k := fun h => hk (h ▸ hkey)
      have hxk : key x ≠ k := hk.symm
      rw [List.filter_cons, if_pos (by simpa using hbk)]
      by_cases hbx : r b x
      · simp [place, hkey, hbx, hxk]
      · simp [place, hkey, hbx, hxk]
    · by_cases hbx : r b x
      · rw [place, if_neg hkey, if_pos hbx]
        by_cases hbk : key b = k
        · rw [List.filter_cons, List.filter_cons, if_neg (by simp [hbk]), if_neg (by simp [hbk]), ih]
        · rw [List.filter_cons, List.filter_cons, if_pos (by simpa using hbk),
            if_pos (by simpa using hbk), place, if_neg hkey, if_pos hbx, ih]
      · -- All entries rank below the new one.
        have hall : ∀ c ∈ b :: l, ¬ r c x := by
          intro c hc hcx
          rcases List.mem_cons.mp hc with rfl | hc
          · exact hbx hcx
          · exact hbx (trans_of r (List.rel_of_pairwise_cons hsorted hc) hcx)
        have hfiltered : ∀ c ∈ (b :: l).filter (key · ≠ k), ¬ r c x :=
          fun c hc => hall c (List.mem_of_mem_filter hc)
        rw [place_of_forall_not hall hnodup,
          place_of_forall_not hfiltered (hnodup.sublist (List.filter_sublist.map key)),
          List.filter_cons, if_pos (by simpa using hk.symm), List.filter_filter,
          List.filter_filter]
        simp only [Bool.and_comm]

/-- The first entries of the keys after one more insertion. -/
theorem keepFirst_insertLast [IsTrans α r] (x : α) {l : List α} (hsorted : l.Pairwise r) :
    keepFirst key (insertLast r x l) = place r key x (keepFirst key l) := by
  induction l with
  | nil => rfl
  | cons b l ih =>
    have ih := ih hsorted.of_cons
    have hranked := hsorted.of_cons.sublist (keepFirst_sublist key l)
    rw [keepFirst, insertLast]
    by_cases hbx : r b x
    · rw [if_pos hbx, keepFirst, ih, place]
      by_cases hkey : key b = key x
      · rw [if_pos hkey, if_pos hbx, hkey, place_filter_key]
      · rw [if_neg hkey, if_pos hbx, place_filter hkey hranked (keepFirst_nodup l)]
    · rw [if_neg hbx, keepFirst, keepFirst, place]
      by_cases hkey : key b = key x
      · rw [if_pos hkey, if_neg hbx, List.filter_cons, if_neg (by simp [hkey]), hkey,
          List.filter_filter]
        simp
      · rw [if_neg hkey, if_neg hbx, List.filter_cons, if_pos (by simpa using hkey)]

theorem mem_place [IsTrans α r] {x y : α} {l : List α} (hsorted : l.Pairwise r)
    (hnodup : (l.map key).Nodup) :
    y ∈ place r key x l ↔
      (y = x ∧ ∀ b ∈ l, key b = key x → ¬ r b x) ∨ (y ∈ l ∧ (key y = key x → r y x)) := by
  induction l with
  | nil => simp [place]
  | cons b l ih =>
    have ih := ih hsorted.of_cons (List.nodup_cons.mp hnodup).2
    have hbelow : ∀ c ∈ l, r b c := fun c hc => List.rel_of_pairwise_cons hsorted hc
    rw [List.map_cons, List.nodup_cons] at hnodup
    unfold place
    by_cases hkey : key b = key x
    · -- The key is that of the head, and of no other entry.
      have hother : ∀ c ∈ l, key c ≠ key x := fun c hc hcx =>
        hnodup.1 (hkey.trans hcx.symm ▸ List.mem_map_of_mem hc)
      by_cases hbx : r b x
      · rw [if_pos hkey, if_pos hbx]
        grind
      · rw [if_pos hkey, if_neg hbx]
        grind
    · by_cases hbx : r b x
      · rw [if_neg hkey, if_pos hbx, List.mem_cons, ih]
        grind
      · have habove : ∀ c ∈ l, ¬ r c x := fun c hc hcx => hbx (trans_of r (hbelow c hc) hcx)
        rw [if_neg hkey, if_neg hbx, List.mem_cons, List.mem_cons, List.mem_filter]
        grind

theorem mem_of_mem_place {x y : α} {l : List α} (h : y ∈ place r key x l) : y = x ∨ y ∈ l := by
  induction l with
  | nil => simpa [place] using h
  | cons b l ih =>
    unfold place at h
    grind

theorem place_nodup {x : α} {l : List α} (hnodup : (l.map key).Nodup) :
    ((place r key x l).map key).Nodup := by
  induction l with
  | nil => simp [place]
  | cons b l ih =>
    have hnodup' := hnodup
    rw [List.map_cons, List.nodup_cons] at hnodup
    unfold place
    by_cases hkey : key b = key x
    · by_cases hbx : r b x
      · simpa [hkey, hbx] using hnodup'
      · simpa [hkey, hbx] using hnodup'
    · by_cases hbx : r b x
      · rw [if_neg hkey, if_pos hbx, List.map_cons, List.nodup_cons]
        refine ⟨?_, ih hnodup.2⟩
        intro hmem
        obtain ⟨c, hc, hcb⟩ := List.mem_map.mp hmem
        rcases mem_of_mem_place hc with rfl | hc
        · exact hkey hcb.symm
        · exact hnodup.1 (hcb ▸ List.mem_map_of_mem hc)
      · rw [if_neg hkey, if_neg hbx, List.map_cons, List.nodup_cons]
        refine ⟨?_, hnodup'.sublist ((List.filter_sublist.cons_cons b).map key)⟩
        intro hmem
        obtain ⟨c, hc, hcx⟩ := List.mem_map.mp hmem
        rcases List.mem_cons.mp hc with rfl | hc
        · exact hkey hcx
        · have hne : key c ≠ key x := by simpa using List.of_mem_filter hc
          exact hne hcx

theorem place_sorted [IsTrans α r] [Std.Total r] {x : α} {l : List α} (hsorted : l.Pairwise r) :
    (place r key x l).Pairwise r := by
  induction l with
  | nil => simp [place]
  | cons b l ih =>
    have hbelow : ∀ c ∈ l, r b c := fun c hc => List.rel_of_pairwise_cons hsorted hc
    unfold place
    by_cases hbx : r b x
    · by_cases hkey : key b = key x
      · rwa [if_pos hkey, if_pos hbx]
      · rw [if_neg hkey, if_pos hbx]
        refine List.pairwise_cons.mpr ⟨fun c hc => ?_, ih hsorted.of_cons⟩
        rcases mem_of_mem_place hc with rfl | hc
        · exact hbx
        · exact hbelow c hc
    · have hxb : r x b := (total_of r x b).resolve_right hbx
      have hxl : ∀ c ∈ l, r x c := fun c hc => trans_of r hxb (hbelow c hc)
      by_cases hkey : key b = key x
      · rw [if_pos hkey, if_neg hbx]
        exact List.pairwise_cons.mpr ⟨hxl, hsorted.of_cons⟩
      · rw [if_neg hkey, if_neg hbx]
        refine List.pairwise_cons.mpr ⟨fun c hc => ?_, hsorted.sublist
          (List.filter_sublist.cons_cons b)⟩
        rcases List.mem_cons.mp hc with rfl | hc
        · exact hxb
        · exact hxl c (List.mem_of_mem_filter hc)

/-! ## Truncation -/

/-- Among distinct keys a filter drops at most one entry. -/
theorem take_filter_key {k : K} {l : List α} (hnodup : (l.map key).Nodup) (n : Nat) :
    ((l.take (n + 1)).filter (key · ≠ k)).take n = (l.filter (key · ≠ k)).take n := by
  induction l generalizing n with
  | nil => simp
  | cons b l ih =>
    rw [List.map_cons, List.nodup_cons] at hnodup
    by_cases hkey : key b = k
    · have hrest : ∀ c ∈ l, key c ≠ k := fun c hc hck =>
        hnodup.1 (hkey.trans hck.symm ▸ List.mem_map_of_mem hc)
      have hall : l.filter (key · ≠ k) = l :=
        List.filter_eq_self.mpr fun c hc => by simpa using hrest c hc
      have htake : (l.take n).filter (key · ≠ k) = l.take n :=
        List.filter_eq_self.mpr fun c hc => by simpa using hrest c (List.mem_of_mem_take hc)
      rw [List.take_succ_cons, List.filter_cons, List.filter_cons, if_neg (by simp [hkey]),
        if_neg (by simp [hkey]), hall, htake, List.take_take, Nat.min_self]
    · rw [List.take_succ_cons, List.filter_cons, List.filter_cons, if_pos (by simpa using hkey),
        if_pos (by simpa using hkey)]
      cases n with
      | zero => rfl
      | succ n => rw [List.take_succ_cons, List.take_succ_cons, ih hnodup.2]

/-- An entry dropped before an insertion is not among the first after it. -/
theorem take_place {x : α} {l : List α} (hnodup : (l.map key).Nodup) (n : Nat) :
    (place r key x (l.take n)).take n = (place r key x l).take n := by
  induction l generalizing n with
  | nil => simp
  | cons b l ih =>
    cases n with
    | zero => simp
    | succ n =>
      have hrest := (List.nodup_cons.mp hnodup).2
      rw [List.take_succ_cons, place, place]
      by_cases hkey : key b = key x
      · by_cases hbx : r b x <;> simp [hkey, hbx, List.take_take]
      · by_cases hbx : r b x
        · simp only [hkey, hbx, if_false, if_true]
          rw [List.take_succ_cons, List.take_succ_cons, ih hrest]
        · simp only [hkey, hbx, if_false]
          rw [List.take_succ_cons, List.take_succ_cons]
          cases n with
          | zero => rfl
          | succ n => rw [List.take_succ_cons, List.take_succ_cons, take_filter_key hrest]

theorem take_foldl_place {entries l : List α} (hnodup : (l.map key).Nodup) (n : Nat) :
    (entries.foldl (fun l x => place r key x l) (l.take n)).take n =
      (entries.foldl (fun l x => place r key x l) l).take n := by
  induction entries generalizing l with
  | nil => rw [List.foldl_nil, List.foldl_nil, List.take_take, Nat.min_self]
  | cons x entries ih =>
    have htaken : ((l.take n).map key).Nodup := hnodup.sublist ((List.take_sublist n l).map key)
    rw [List.foldl_cons, List.foldl_cons, ← ih (place_nodup htaken), take_place hnodup,
      ih (place_nodup hnodup)]

/-! ## Rankings -/

variable (r key) in
/-- The first entry of every key after a stable sort. -/
def ranking (l : List α) : List α := keepFirst key (l.insertionSort r)

variable (r key) in
/-- No entry of its key ranks higher, and none that ties with it comes before. -/
def IsBest (x : α) (l : List α) : Prop :=
  ∃ before after, l = before ++ x :: after ∧
    (∀ y ∈ before, key y = key x → ¬ r y x) ∧ ∀ y ∈ after, key y = key x → r x y

variable (r key) in
theorem ranking_nodup (l : List α) : ((ranking r key l).map key).Nodup :=
  keepFirst_nodup _

/-- A ranked list of distinct keys is its own ranking. -/
theorem ranking_of_sorted {l : List α} (hsorted : l.Pairwise r) (hnodup : (l.map key).Nodup) :
    ranking r key l = l := by
  unfold ranking
  rw [hsorted.insertionSort_eq, keepFirst_of_nodup hnodup]

section Total

variable [IsTrans α r] [Std.Total r]

theorem ranking_sorted (l : List α) : (ranking r key l).Pairwise r :=
  (List.pairwise_insertionSort r l).sublist (keepFirst_sublist key _)

theorem ranking_concat (l : List α) (x : α) :
    ranking r key (l ++ [x]) = place r key x (ranking r key l) := by
  unfold ranking
  rw [insertionSort_concat, keepFirst_insertLast x (List.pairwise_insertionSort r l)]

theorem ranking_append (l entries : List α) :
    ranking r key (l ++ entries) =
      entries.foldl (fun l x => place r key x l) (ranking r key l) := by
  induction entries generalizing l with
  | nil => rw [List.append_nil, List.foldl_nil]
  | cons x entries ih => rw [List.append_cons, ih, ranking_concat, List.foldl_cons]

/-- Truncating a ranking before more entries arrive loses none of the first ones. -/
theorem take_ranking_append (l entries : List α) (n : Nat) :
    (ranking r key ((ranking r key l).take n ++ entries)).take n =
      (ranking r key (l ++ entries)).take n := by
  have hsub := List.take_sublist n (ranking r key l)
  rw [ranking_append, ranking_append,
    ranking_of_sorted ((ranking_sorted l).sublist hsub) ((ranking_nodup r key l).sublist (hsub.map key)),
    take_foldl_place (ranking_nodup r key l)]

omit [DecidableRel r] [DecidableEq K] [IsTrans α r] in
theorem IsBest.rel {x y : α} {l : List α} (h : IsBest r key x l) (hy : y ∈ l)
    (hkey : key y = key x) : r x y := by
  obtain ⟨before, after, rfl, hbefore, hafter⟩ := h
  rw [List.mem_append, List.mem_cons] at hy
  rcases hy with hy | rfl | hy
  · exact (total_of r x y).resolve_right (hbefore y hy hkey)
  · exact (total_of r y y).elim id id
  · exact hafter y hy hkey

omit [DecidableRel r] [DecidableEq K] [IsTrans α r] [Std.Total r] in
theorem isBest_concat {x z : α} {l : List α} :
    IsBest r key x (l ++ [z]) ↔
      (x = z ∧ ∀ y ∈ l, key y = key z → ¬ r y z) ∨
        (IsBest r key x l ∧ (key x = key z → r x z)) := by
  constructor
  · rintro ⟨before, after, hl, hbefore, hafter⟩
    rcases List.eq_nil_or_concat after with rfl | ⟨after, last, rfl⟩
    · obtain ⟨rfl, rfl⟩ : l = before ∧ z = x := by simpa using hl
      exact .inl ⟨rfl, hbefore⟩
    · rw [List.concat_eq_append] at hl hafter
      rw [← List.cons_append, ← List.append_assoc] at hl
      obtain ⟨rfl, hz⟩ := List.append_inj' hl rfl
      obtain rfl : z = last := by simpa using hz
      refine .inr ⟨⟨before, after, rfl, hbefore, fun y hy => hafter y (by simp [hy])⟩, ?_⟩
      exact fun hkey => hafter z (by simp) hkey.symm
  · rintro (⟨rfl, hl⟩ | ⟨⟨before, after, rfl, hbefore, hafter⟩, hz⟩)
    · exact ⟨l, [], rfl, hl, by simp⟩
    · refine ⟨before, after ++ [z], by simp, hbefore, fun y hy hkey => ?_⟩
      rcases List.mem_append.mp hy with hy | hy
      · exact hafter y hy hkey
      · obtain rfl : y = z := by simpa using hy
        exact hz hkey.symm

variable (r key) in
theorem exists_isBest {y : α} {l : List α} (hy : y ∈ l) :
    ∃ x, IsBest r key x l ∧ key x = key y := by
  induction l using List.reverseRecOn generalizing y with
  | nil => simp at hy
  | append_singleton l z ih =>
    -- The best of the old ones stays unless the new one ranks higher.
    have hold : ∀ y ∈ l, ∃ x, IsBest r key x (l ++ [z]) ∧ key x = key y := by
      intro y hy
      obtain ⟨x, hx, hkey⟩ := ih hy
      by_cases hz : key x = key z → r x z
      · exact ⟨x, isBest_concat.mpr (.inr ⟨hx, hz⟩), hkey⟩
      · obtain ⟨hxz, hnot⟩ := Classical.not_imp.mp hz
        refine ⟨z, isBest_concat.mpr (.inl ⟨rfl, fun w hw hwz hrel => ?_⟩), hxz.symm.trans hkey⟩
        exact hnot (trans_of r (hx.rel hw (hwz.trans hxz.symm)) hrel)
    rcases List.mem_append.mp hy with hy | hy
    · exact hold y hy
    · obtain rfl : y = z := by simpa using hy
      by_cases hshared : ∃ w ∈ l, key w = key y
      · obtain ⟨w, hw, hkey⟩ := hshared
        obtain ⟨x, hx, hxw⟩ := hold w hw
        exact ⟨x, hx, hxw.trans hkey⟩
      · exact ⟨y, isBest_concat.mpr (.inl ⟨rfl, fun w hw hkey => absurd ⟨w, hw, hkey⟩ hshared⟩), rfl⟩

/-- A ranking has the best entry of every key. -/
theorem mem_ranking {x : α} {l : List α} : x ∈ ranking r key l ↔ IsBest r key x l := by
  induction l using List.reverseRecOn generalizing x with
  | nil => simp [ranking, keepFirst, IsBest]
  | append_singleton l z ih =>
    have hbest : (∀ b ∈ ranking r key l, key b = key z → ¬ r b z) ↔
        ∀ y ∈ l, key y = key z → ¬ r y z := by
      constructor
      · intro h y hy hkey hrel
        obtain ⟨b, hb, hby⟩ := exists_isBest r key hy
        exact h b (ih.mpr hb) (hby.trans hkey) (trans_of r (hb.rel hy hby.symm) hrel)
      · intro h b hb
        obtain ⟨before, after, rfl, -⟩ := ih.mp hb
        exact h b (by simp)
    rw [ranking_concat, mem_place (ranking_sorted l) (ranking_nodup r key l), ih, hbest, isBest_concat]

section Antisymm

variable [Std.Antisymm r]

/-- Where nothing ties, the best entry of a key is at least as good as each of them. -/
theorem mem_ranking_iff {x : α} {l : List α} :
    x ∈ ranking r key l ↔ x ∈ l ∧ ∀ y ∈ l, key y = key x → r x y := by
  rw [mem_ranking]
  constructor
  · intro h
    obtain ⟨before, after, heq, -⟩ := id h
    refine ⟨by rw [heq]; exact List.mem_append_right _ List.mem_cons_self, fun y hy hkey => ?_⟩
    exact h.rel hy hkey
  · rintro ⟨hx, hbest⟩
    obtain ⟨best, hmost, hkey⟩ := exists_isBest r key hx
    obtain ⟨before, after, heq, -⟩ := id hmost
    have hmem : best ∈ l := by
      rw [heq]
      exact List.mem_append_right _ List.mem_cons_self
    rw [antisymm_of r (hbest best hmem hkey) (hmost.rel hx hkey.symm)]
    exact hmost

/-- Then a ranking depends on which entries there are, not on their order or number. -/
theorem ranking_congr {l l' : List α} (h : ∀ x, x ∈ l ↔ x ∈ l') :
    ranking r key l = ranking r key l' := by
  have hperm : (ranking r key l).Perm (ranking r key l') := by
    rw [List.perm_ext_iff_of_nodup (ranking_nodup r key l).of_map (ranking_nodup r key l').of_map]
    intro x
    rw [mem_ranking_iff, mem_ranking_iff, h]
    simp only [h]
  exact hperm.eq_of_pairwise (fun _ _ _ _ hab hba => antisymm_of r hab hba) (ranking_sorted l)
    (ranking_sorted l')

end Antisymm

end Total

/-! ## Distinct keys by a set of seen ones -/

/-- Keeps the entries whose key was not seen before. -/
def retainFirst (key : α → K) (seen : List K) : List α → List α
  | [] => []
  | a :: l =>
    if key a ∈ seen then retainFirst key seen l else a :: retainFirst key (key a :: seen) l

theorem retainFirst_eq (seen : List K) (l : List α) :
    retainFirst key seen l = (keepFirst key l).filter (key · ∉ seen) := by
  induction l generalizing seen with
  | nil => rfl
  | cons a l ih =>
    rw [retainFirst, keepFirst, List.filter_cons]
    split
    · next hseen =>
      -- What has the key of an entry seen before is dropped as well.
      rw [if_neg (by simpa using hseen), ih, List.filter_filter]
      refine List.filter_congr fun b _ => ?_
      by_cases hkey : key b = key a
      · simp [hkey, hseen]
      · simp [hkey]
    · next hseen =>
      rw [if_pos (by simpa using hseen), ih, List.filter_filter]
      congr 1
      refine List.filter_congr fun b _ => ?_
      by_cases hkey : key b = key a
      · simp [hkey]
      · simp [hkey]

theorem retainFirst_nil (l : List α) : retainFirst key [] l = keepFirst key l := by
  rw [retainFirst_eq]
  exact List.filter_eq_self.mpr fun a _ => by simp

/-- A new key is inserted without dropping an entry. -/
theorem place_eq_insertLast {x : α} {l : List α} (h : ∀ b ∈ l, key b ≠ key x) :
    place r key x l = insertLast r x l := by
  induction l with
  | nil => rfl
  | cons b l ih =>
    rw [List.forall_mem_cons] at h
    have hkeep : l.filter (key · ≠ key x) = l :=
      List.filter_eq_self.mpr fun c hc => by simpa using h.2 c hc
    rw [place, insertLast, if_neg h.1, hkeep, ih h.2]

end Keyed

end ForStd
