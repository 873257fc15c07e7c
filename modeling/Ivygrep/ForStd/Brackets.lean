import Mathlib

/-!
# Bracketed text

Scanning text with nested brackets: the text before the bracket that closes a group, and the parts
between the separators outside every bracket. A text whose brackets are balanced and whose
separators are all within brackets passes such a scan as one part.
-/

namespace ForStd.Brackets

variable {α : Type*} [DecidableEq α] (opening closing separator : α)

/-- The text before the bracket that closes the group, with so many brackets open. -/
def beforeClosing (depth : Nat) : List α → Option (List α)
  | [] => none
  | c :: rest =>
    if c = opening then (beforeClosing (depth + 1) rest).map (c :: ·)
    else if c = closing then
      if depth - 1 = 0 then some [] else (beforeClosing (depth - 1) rest).map (c :: ·)
    else (beforeClosing depth rest).map (c :: ·)

/-- The parts between the separators outside every bracket, from an open part on. -/
def splitOutside (depth : Nat) (part : List α) : List α → List (List α)
  | [] => [part]
  | c :: rest =>
    if c = opening then splitOutside (depth + 1) (part ++ [c]) rest
    else if c = closing then splitOutside (depth - 1) (part ++ [c]) rest
    else if c = separator ∧ depth = 0 then part :: splitOutside 0 [] rest
    else splitOutside depth (part ++ [c]) rest

/-! ## Counting brackets -/

variable {opening closing separator}

theorem count_beforeClosing_le {depth : Nat} {text group : List α}
    (h : beforeClosing opening closing depth text = some group) (c : α) :
    group.count c ≤ text.count c := by
  induction text generalizing depth group with
  | nil => simp [beforeClosing] at h
  | cons first rest ih =>
    have hstep : ∀ depth, (beforeClosing opening closing depth rest).map (first :: ·) = some group →
        group.count c ≤ (first :: rest).count c := by
      intro depth hmap
      obtain ⟨inner, hinner, rfl⟩ := Option.map_eq_some_iff.mp hmap
      have hle := ih hinner
      simp only [List.count_cons]
      omega
    simp only [beforeClosing] at h
    split at h
    · exact hstep _ h
    · split at h
      · split at h
        · cases h
          simp
        · exact hstep _ h
      · exact hstep _ h

theorem count_of_mem_splitOutside {depth : Nat} {part text member : List α}
    (h : member ∈ splitOutside opening closing separator depth part text) (c : α) :
    member.count c ≤ part.count c + text.count c := by
  induction text generalizing depth part with
  | nil =>
    obtain rfl : member = part := by simpa [splitOutside] using h
    omega
  | cons first rest ih =>
    have hstep : ∀ depth,
        member ∈ splitOutside opening closing separator depth (part ++ [first]) rest →
        member.count c ≤ part.count c + (first :: rest).count c := by
      intro depth hmem
      have hle := ih hmem
      simp only [List.count_append, List.count_cons, List.count_nil] at hle ⊢
      omega
    simp only [splitOutside] at h
    split at h
    · exact hstep _ h
    · split at h
      · exact hstep _ h
      · split at h
        · rcases List.mem_cons.mp h with rfl | hmem
          · omega
          · have hle := ih hmem
            simp only [List.count_cons, List.count_nil] at hle ⊢
            omega
        · exact hstep _ h

/-! ## Texts that pass a scan -/

/-- A text that a scan at this depth or deeper passes as a whole. -/
structure Passes (opening closing separator : α) (least : Nat) (text : List α) : Prop where
  split : ∀ depth, least ≤ depth → ∀ part rest,
    splitOutside opening closing separator depth part (text ++ rest) =
      splitOutside opening closing separator depth (part ++ text) rest
  closing : ∀ depth, 1 ≤ depth → ∀ rest,
    beforeClosing opening closing depth (text ++ rest) =
      (beforeClosing opening closing depth rest).map (text ++ ·)

theorem Passes.mono {least more : Nat} {text : List α} (hle : least ≤ more)
    (h : Passes opening closing separator least text) :
    Passes opening closing separator more text :=
  ⟨fun depth hdepth => h.split depth (by omega), h.closing⟩

theorem passes_nil (least : Nat) : Passes opening closing separator least ([] : List α) where
  split _ _ _ _ := by simp
  closing _ _ _ := by simp

theorem Passes.append {least : Nat} {left right : List α}
    (hleft : Passes opening closing separator least left)
    (hright : Passes opening closing separator least right) :
    Passes opening closing separator least (left ++ right) where
  split depth hdepth part rest := by
    rw [List.append_assoc, hleft.split depth hdepth, hright.split depth hdepth, List.append_assoc]
  closing depth hdepth rest := by
    rw [List.append_assoc, hleft.closing depth hdepth, hright.closing depth hdepth, Option.map_map]
    simp [Function.comp_def]

theorem passes_singleton {c : α} (hopening : c ≠ opening) (hclosing : c ≠ closing)
    (hseparator : c ≠ separator) : Passes opening closing separator 0 [c] where
  split depth _ part rest := by simp [splitOutside, hopening, hclosing, hseparator]
  closing depth _ rest := by simp [beforeClosing, hopening, hclosing]

/-- A text without brackets and separators passes. -/
theorem passes_of_forall {text : List α}
    (h : ∀ c ∈ text, c ≠ opening ∧ c ≠ closing ∧ c ≠ separator) :
    Passes opening closing separator 0 text := by
  induction text with
  | nil => exact passes_nil 0
  | cons c rest ih =>
    obtain ⟨hopening, hclosing, hseparator⟩ := h c (by simp)
    exact (passes_singleton hopening hclosing hseparator).append
      (ih fun other hother => h other (by simp [hother]))

/-- Within brackets a separator passes, too. -/
theorem passes_separator (hopening : separator ≠ opening) (hclosing : separator ≠ closing) :
    Passes opening closing separator 1 [separator] where
  split depth hdepth part rest := by
    have hne : depth ≠ 0 := by omega
    simp [splitOutside, hopening, hclosing, hne]
  closing depth _ rest := by simp [beforeClosing, hopening, hclosing]

/-- A group passes when its text passes within brackets. -/
theorem Passes.group {inner : List α} (hne : closing ≠ opening)
    (h : Passes opening closing separator 1 inner) :
    Passes opening closing separator 0 (opening :: inner ++ [closing]) where
  split depth _ part rest := by
    have hinner := h.split (depth + 1) (by omega) (part ++ [opening]) (closing :: rest)
    simp only [List.cons_append, List.append_assoc, List.nil_append, splitOutside, if_true]
    rw [hinner]
    simp [splitOutside, hne]
  closing depth hdepth rest := by
    have hinner := h.closing (depth + 1) (by omega) (closing :: rest)
    have hopen : depth ≠ 0 := by omega
    simp only [List.cons_append, List.append_assoc, List.nil_append, beforeClosing, if_true]
    rw [hinner]
    simp [beforeClosing, hne, hopen, Option.map_map, Function.comp_def]

/-- The group that a bracket opens ends at the bracket that closes it. -/
theorem Passes.beforeClosing_eq {inner : List α} (hne : closing ≠ opening)
    (h : Passes opening closing separator 1 inner) (rest : List α) :
    beforeClosing opening closing 1 (inner ++ closing :: rest) = some inner := by
  rw [h.closing 1 (Nat.le_refl 1)]
  simp [beforeClosing, hne]

/-! ## Lists of members -/

/-- A part that passes is the last one when nothing follows it. -/
theorem Passes.splitOutside_last {part : List α} (h : Passes opening closing separator 0 part) :
    splitOutside opening closing separator 0 [] part = [part] := by
  have hsplit := h.split 0 (Nat.le_refl 0) [] []
  simpa [splitOutside] using hsplit

/-- A part that passes is cut off at the separator after it. -/
theorem Passes.splitOutside_cons {part : List α} (hopening : separator ≠ opening)
    (hclosing : separator ≠ closing) (h : Passes opening closing separator 0 part)
    (rest : List α) :
    splitOutside opening closing separator 0 [] (part ++ separator :: rest) =
      part :: splitOutside opening closing separator 0 [] rest := by
  rw [h.split 0 (Nat.le_refl 0), List.nil_append]
  simp [splitOutside, hopening, hclosing]

/-- A part and the list after it pass within brackets. -/
theorem Passes.member {part rest : List α} (hopening : separator ≠ opening)
    (hclosing : separator ≠ closing) (h : Passes opening closing separator 0 part)
    (hrest : Passes opening closing separator 1 rest) :
    Passes opening closing separator 1 (part ++ separator :: rest) :=
  (h.mono (Nat.zero_le 1)).append ((passes_separator hopening hclosing).append hrest)

end ForStd.Brackets
