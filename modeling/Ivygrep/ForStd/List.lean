import Mathlib

/-!
# List lemmas

General facts about infixes, splitting and mapped lists.
-/

namespace ForStd

variable {α β γ : Type*}

/-- Lists with equal images under `f` have equal images under `g`, if `f` determines
    `g` at their members. -/
theorem map_eq_map_of_map_eq_map {f : α → β} {g : α → γ} {left right : List α}
    (h : left.map f = right.map f)
    (hfg : ∀ a ∈ left, ∀ b ∈ right, f a = f b → g a = g b) : left.map g = right.map g := by
  induction left generalizing right with
  | nil =>
    have : right = [] := by simpa using h.symm
    rw [this]
  | cons a left ih =>
    cases right with
    | nil => simp at h
    | cons b right =>
      simp only [List.map_cons, List.cons.injEq] at h
      rw [List.map_cons, List.map_cons, hfg a (by simp) b (by simp) h.1,
        ih h.2 fun c hc d hd => hfg c (List.mem_cons_of_mem _ hc) d (List.mem_cons_of_mem _ hd)]

/-- An infix of a mapped list is the image of an infix. -/
theorem exists_isInfix_of_map {f : α → β} {part : List α} {whole other : List α}
    (hpart : part <:+: whole) (h : whole.map f = other.map f) :
    ∃ found, found <:+: other ∧ part.map f = found.map f := by
  obtain ⟨before, after, rfl⟩ := hpart
  rw [List.map_append, List.map_append] at h
  obtain ⟨front, back, rfl, hfront, -⟩ := List.map_eq_append_iff.mp h.symm
  obtain ⟨front, found, rfl, -, hfound⟩ := List.map_eq_append_iff.mp hfront
  exact ⟨found, ⟨front, back, rfl⟩, hfound.symm⟩

/-- The segments of a split list are infixes of it: the first one is a prefix. -/
theorem splitOnP_isInfix (p : α → Bool) (l : List α) :
    ∃ first rest, l.splitOnP p = first :: rest ∧ first <+: l ∧
      (∀ a ∈ first, p a = false) ∧
      ∀ part ∈ rest, part <:+: l ∧ ∀ a ∈ part, p a = false := by
  induction l with
  | nil => exact ⟨[], [], by simp, by simp, by simp, by simp⟩
  | cons a l ih =>
    obtain ⟨first, rest, hsplit, hhead, hfirst, hrest⟩ := ih
    rw [List.splitOnP_cons_eq_if_modifyHead, hsplit]
    have hlift : ∀ part ∈ rest, part <:+: a :: l ∧ ∀ b ∈ part, p b = false :=
      fun part hpart => ⟨List.infix_cons (hrest part hpart).1, (hrest part hpart).2⟩
    cases ha : p a with
    | true =>
      refine ⟨[], first :: rest, by simp, by simp, by simp, fun part hpart => ?_⟩
      rcases List.mem_cons.mp hpart with rfl | hpart
      · exact ⟨List.infix_cons hhead.isInfix, hfirst⟩
      · exact hlift part hpart
    | false =>
      refine ⟨a :: first, rest, by simp, (List.prefix_cons_inj a).mpr hhead, ?_, hlift⟩
      intro b hb
      rcases List.mem_cons.mp hb with rfl | hb
      · exact ha
      · exact hfirst b hb

/-- A segment of a split list is an infix of it, without separators. -/
theorem mem_splitOnP {p : α → Bool} {l part : List α} (h : part ∈ l.splitOnP p) :
    part <:+: l ∧ ∀ a ∈ part, p a = false := by
  obtain ⟨first, rest, hsplit, hhead, hfirst, hrest⟩ := splitOnP_isInfix p l
  rw [hsplit] at h
  rcases List.mem_cons.mp h with rfl | h
  · exact ⟨hhead.isInfix, hfirst⟩
  · exact hrest part h

/-- Destuttering drops members, it adds none. -/
theorem mem_of_mem_destutter {R : α → α → Prop} [DecidableRel R] {a : α} {l : List α}
    (h : a ∈ l.destutter R) : a ∈ l :=
  (List.destutter_sublist R l).subset h

/-- A list whose members all satisfy `p` and that is an infix of `noise ++ l`, where no
    member of `noise` does, is an infix of `l`. -/
theorem isInfix_of_append {p : α → Prop} {part noise l : List α} (hne : part ≠ [])
    (hpart : ∀ a ∈ part, p a) (hnoise : ∀ a ∈ noise, ¬ p a) (h : part <:+: noise ++ l) :
    part <:+: l := by
  induction noise with
  | nil => exact h
  | cons a noise ih =>
    rw [List.cons_append, List.infix_cons_iff] at h
    rcases h with h | h
    · obtain ⟨b, part, rfl⟩ := List.exists_cons_of_ne_nil hne
      obtain ⟨rfl, -⟩ := List.cons_prefix_cons.mp h
      exact absurd (hpart b (by simp)) (hnoise b (by simp))
    · exact ih (fun b hb => hnoise b (List.mem_cons_of_mem _ hb)) h

/-- In a list with distinct keys, `lookup` finds each of them. -/
theorem lookup_eq_some_iff_of_nodup [BEq α] [LawfulBEq α] {l : List (α × β)}
    (h : (l.map Prod.fst).Nodup) {a : α} {b : β} : l.lookup a = some b ↔ (a, b) ∈ l := by
  induction l with
  | nil => simp
  | cons entry l ih =>
    obtain ⟨key, value⟩ := entry
    rw [List.map_cons, List.nodup_cons] at h
    rw [List.lookup_cons, List.mem_cons, Prod.mk.injEq]
    by_cases hkey : a = key
    · subst hkey
      have hnot : (a, b) ∉ l := fun hmem => h.1 (List.mem_map.mpr ⟨(a, b), hmem, rfl⟩)
      simp [hnot, eq_comm]
    · rw [beq_eq_false_iff_ne.mpr hkey]
      simp only [hkey, false_and, false_or]
      exact ih h.2

/-- A member of a list that has grown by one is an old one or the new one. -/
theorem getElem?_concat_eq_some {l : List α} {a b : α} {i : Nat}
    (h : (l ++ [a])[i]? = some b) : l[i]? = some b ∨ i = l.length ∧ b = a := by
  rw [List.getElem?_append] at h
  split at h
  · exact .inl h
  · rename_i hge
    obtain ⟨hlt, hb⟩ := List.getElem?_eq_some_iff.mp h
    have hone : i - l.length < 1 := hlt
    refine .inr ⟨by omega, ?_⟩
    rw [← hb, List.getElem_singleton]

/-- A sublist with the same sum of positive weights is the whole list. -/
theorem eq_of_sublist_of_sum_eq {weight : α → Nat} {part whole : List α}
    (h : part.Sublist whole) (hpos : ∀ a ∈ whole, 0 < weight a)
    (hsum : (part.map weight).sum = (whole.map weight).sum) : part = whole := by
  have hle : ∀ {part whole : List α}, part.Sublist whole →
      (part.map weight).sum ≤ (whole.map weight).sum := by
    intro part whole h
    induction h with
    | slnil => exact Nat.le_refl _
    | cons a _ ih => simp only [List.map_cons, List.sum_cons]; omega
    | cons_cons a _ ih => simp only [List.map_cons, List.sum_cons]; omega
  induction h with
  | slnil => rfl
  | cons a h ih =>
    have := hle h
    have := hpos a (by simp)
    simp only [List.map_cons, List.sum_cons] at hsum
    omega
  | cons_cons a h ih =>
    simp only [List.map_cons, List.sum_cons, Nat.add_left_cancel_iff] at hsum
    rw [ih (fun b hb => hpos b (List.mem_cons_of_mem _ hb)) hsum]

/-- The last member of a list that satisfies a predicate. -/
theorem exists_last {p : α → Prop} {l : List α} (h : ∃ a ∈ l, p a) :
    ∃ before a after, l = before ++ a :: after ∧ p a ∧ ∀ b ∈ after, ¬ p b := by
  induction l with
  | nil =>
    obtain ⟨a, ha, -⟩ := h
    cases ha
  | cons first l ih =>
    by_cases hrest : ∃ a ∈ l, p a
    · obtain ⟨before, a, after, rfl, ha, hafter⟩ := ih hrest
      exact ⟨first :: before, a, after, rfl, ha, hafter⟩
    · have hnone : ∀ b ∈ l, ¬ p b := fun b hb hpb => hrest ⟨b, hb, hpb⟩
      obtain ⟨a, ha, hpa⟩ := h
      rcases List.mem_cons.mp ha with rfl | hmem
      · exact ⟨[], a, l, rfl, hpa, hnone⟩
      · exact absurd hpa (hnone a hmem)

theorem forall₂_trans {R : α → α → Prop} (htrans : ∀ a b c, R a b → R b c → R a c)
    {first second third : List α} (h : List.Forall₂ R first second)
    (h' : List.Forall₂ R second third) : List.Forall₂ R first third := by
  induction h generalizing third with
  | nil => exact h'
  | cons hhead _ ih =>
    cases h' with
    | cons hhead' htail' => exact .cons (htrans _ _ _ hhead hhead') (ih htail')

/-- What a filter keeps has its keys in the same order. -/
theorem map_filterMap_sublist {f : α → Option β} {g : α → γ} {k : β → γ}
    (h : ∀ a b, f a = some b → k b = g a) (l : List α) :
    ((l.filterMap f).map k).Sublist (l.map g) := by
  induction l with
  | nil => exact List.Sublist.slnil
  | cons a l ih =>
    cases hfa : f a with
    | none =>
      rw [List.filterMap_cons_none hfa]
      exact ih.cons _
    | some b =>
      rw [List.filterMap_cons_some hfa, List.map_cons, h a b hfa]
      exact ih.cons_cons _

/-- What a sum changes by when one entry of a list is replaced. -/
theorem sum_map_set (weight : α → Nat) {l : List α} {i : Nat} {a b : α} (h : l[i]? = some a) :
    ((l.set i b).map weight).sum + weight a = (l.map weight).sum + weight b := by
  induction l generalizing i with
  | nil => simp at h
  | cons c l ih =>
    cases i with
    | zero =>
      obtain rfl : c = a := by simpa using h
      simp only [List.set_cons_zero, List.map_cons, List.sum_cons]
      omega
    | succ i =>
      have hrest := ih (show l[i]? = some a by simpa using h)
      simp only [List.set_cons_succ, List.map_cons, List.sum_cons]
      omega

end ForStd
