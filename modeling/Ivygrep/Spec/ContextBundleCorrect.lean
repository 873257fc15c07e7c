import Ivygrep.Spec.BundleMetrics

/-!
# What a context bundle promises

A bundle stays within its budget as long as it has items, the lines of an item are where it says
they are, and what is left out of an untruncated bundle was passed over.
-/

namespace Ivygrep.Native

namespace ContextBundle

/-- The lines `first..=last` of a text, numbered from one. -/
def linesAt (text : Str) (first last : Nat) : List Str :=
  ((Str.lines text).drop (first - 1)).take (last + 1 - first)

/-- The preview of a candidate is what stands at its lines in its file. -/
def PreviewsSource (source : SourcePath → Str) (candidate : ContextCandidate) : Prop :=
  1 ≤ candidate.startLine ∧ IsText candidate.preview
    (linesAt (source candidate.filePath) candidate.startLine candidate.endLine)

/-- The tokens that the header and these items take. -/
def usedAfter (header : Nat) (items : List ContextItem) : Nat :=
  items.foldl (fun used item => saturatingAdd used item.estimatedTokens) header

/-- `per_item_budget` of a candidate after these items. -/
def itemBudget (budgetTokens header : Nat) (earlier : List ContextItem)
    (candidate : ContextCandidate) : Nat :=
  min (clamp (budgetTokens / 4) 96 400) (budgetTokens - saturatingAdd (usedAfter header earlier)
    (estimateTokens (renderMarkdownItem (earlier.length + 1) (bareItem candidate))))

/-- The item that is made of a candidate after these items, and whether its preview is shortened. -/
def makeItem (words : TaskWords) (budgetTokens header : Nat) (earlier : List ContextItem)
    (candidate : ContextCandidate) : ContextItem × Bool :=
  let shown := truncateToTokenBudget words candidate.preview
    (itemBudget budgetTokens header earlier candidate)
  (itemWithPreview (earlier.length + 1) candidate shown.1 shown.2.2, shown.2.1)

/-- The preview of an item is what stands at its lines in its file, but for blanks at its ends, or
    the beginning of its only line when that is over the budget of the item. -/
def ShowsSource (source : SourcePath → Str) (budget : Nat) (item : ContextItem) : Prop :=
  let lines := linesAt (source item.filePath) item.startLine item.endLine
  1 ≤ item.startLine ∧ lines.length = item.endLine + 1 - item.startLine ∧ lines ≠ [] ∧
    (ShowsLines item.preview lines ∨
      ∃ raw line part, lines = [line] ∧ SameLine raw line ∧ budget < estimateTokens raw ∧
        part <+: raw ∧ item.preview = Str.trim part)

theorem linesAt_item {source : Str} {first last offset count : Nat} (hfirst : 1 ≤ first)
    (hcount : (((linesAt source first last).drop offset).take count).length = count)
    (hpos : 0 < count) :
    linesAt source (first + offset) (first + offset + (count - 1)) =
      ((linesAt source first last).drop offset).take count := by
  unfold linesAt at hcount ⊢
  rw [List.drop_take, List.drop_drop, List.take_take] at hcount ⊢
  have hle : count ≤ last + 1 - first - offset := by
    have hlength := hcount
    rw [List.length_take] at hlength
    omega
  rw [Nat.min_eq_left hle, show first + offset - 1 = first - 1 + offset by omega,
    show first + offset + (count - 1) + 1 - (first + offset) = count by omega]

theorem previewOf_trimmed {lines : List Str} {budget offset : Nat} {preview : Str}
    (h : PreviewOf lines budget preview offset) : Str.trim preview = preview := by
  obtain ⟨-, ⟨raw, -, rfl⟩ | ⟨-, -, part, -, -, -, -, rfl⟩⟩ := h
  · exact Str.trim_trim _
  · exact Str.trim_trim _

theorem itemWithPreview_shows {source : SourcePath → Str} {candidate : ContextCandidate}
    {preview : Str} {budget offset : Nat} (hsource : PreviewsSource source candidate)
    (hpreview : PreviewOf (linesAt (source candidate.filePath) candidate.startLine
      candidate.endLine) budget preview offset) (hne : Str.trim preview ≠ []) (number : Nat) :
    ShowsSource source budget (itemWithPreview number candidate preview offset) := by
  have hpos : 0 < (Str.lines preview).length := by
    rw [← previewOf_trimmed hpreview, Str.length_lines_trim hne]
    exact Nat.succ_pos _
  have hlines := linesAt_item hsource.1 hpreview.1 hpos
  show 1 ≤ candidate.startLine + offset ∧ (linesAt _ _ _).length = _ ∧ linesAt _ _ _ ≠ [] ∧ _
  refine ⟨Nat.le_add_right_of_le hsource.1, ?_, ?_, ?_⟩
  · rw [itemWithPreview, bareItem, hlines, hpreview.1]
    dsimp only
    omega
  · rw [itemWithPreview, bareItem, hlines, ← List.length_pos_iff, hpreview.1]
    exact hpos
  · rw [itemWithPreview, bareItem, hlines]
    exact hpreview.2

theorem makeItem_shows {source : SourcePath → Str} {words : TaskWords} {budgetTokens header : Nat}
    {earlier : List ContextItem} {candidate : ContextCandidate}
    (hsource : PreviewsSource source candidate)
    (hne : Str.trim (makeItem words budgetTokens header earlier candidate).1.preview ≠ []) :
    ShowsSource source (itemBudget budgetTokens header earlier candidate)
      (makeItem words budgetTokens header earlier candidate).1 := by
  apply itemWithPreview_shows hsource _ hne
  apply truncateToTokenBudget_shows hsource.2
  exact fun hnil => hne (congrArg Str.trim hnil)

/-! ## One candidate -/

section Choose

variable {words : TaskWords} {budgetTokens header : Nat} {requiredRoles : List ContextRole}
  {selected : Selected} {candidate : ContextCandidate}

theorem choose_take {item : ContextItem} {previewTruncated : Bool}
    (hused : selected.usedTokens = usedAfter header selected.items)
    (h : choose ⟨words, budgetTokens, requiredRoles⟩ selected candidate =
      .take item previewTruncated) :
    selected.items.length ≠ maxItems ∧ selected.fileCounts candidate.filePath < 3 ∧
      (∀ other ∈ selected.items, substantiallyOverlaps other candidate = false) ∧
      makeItem words budgetTokens header selected.items candidate = (item, previewTruncated) ∧
      Str.trim item.preview ≠ [] := by
  unfold choose at h
  split at h
  · cases h
  next hmore =>
  split at h
  · cases h
  split at h
  · cases h
  next hfile =>
  rw [hused] at h
  dsimp only at h
  split at h
  · cases h
  split at h
  · cases h
  split at h
  · cases h
  next hfits =>
  rw [not_or] at hmore hfile hfits
  cases h
  refine ⟨hmore.1, Nat.lt_of_not_le hfile.1, ?_, rfl, fun hnil => hfits.1 ?_⟩
  · intro other hother
    rw [← Bool.not_eq_true]
    exact fun hoverlaps => hfile.2 (List.any_eq_true.mpr ⟨other, hother, hoverlaps⟩)
  · exact List.isEmpty_iff.mpr hnil

theorem choose_skip (hused : selected.usedTokens = usedAfter header selected.items)
    (h : choose ⟨words, budgetTokens, requiredRoles⟩ selected candidate = .skip) :
    3 ≤ selected.fileCounts candidate.filePath ∨
      (∃ other ∈ selected.items, substantiallyOverlaps other candidate = true) ∨
      Str.trim (makeItem words budgetTokens header selected.items candidate).1.preview = [] ∨
      budgetTokens - usedAfter header selected.items <
        (makeItem words budgetTokens header selected.items candidate).1.estimatedTokens := by
  unfold choose at h
  split at h
  · cases h
  split at h
  · cases h
  split at h
  · next hfile => exact hfile.imp_right fun hany => .inl (List.any_eq_true.mp hany)
  rw [hused] at h
  dsimp only at h
  split at h
  · cases h
  split at h
  · cases h
  split at h
  · next hfits => exact .inr (.inr (hfits.imp_left List.isEmpty_iff.mp))
  · cases h

end Choose

/-! ## The loop -/

@[simp] theorem Selected.add_items (selected : Selected) (item : ContextItem)
    (previewTruncated : Bool) :
    (selected.add item previewTruncated).items = selected.items ++ [item] := rfl

@[simp] theorem Selected.add_truncated (selected : Selected) (item : ContextItem)
    (previewTruncated : Bool) : (selected.add item previewTruncated).truncated =
      (selected.truncated || previewTruncated) := rfl

/-- What holds of the items taken so far, each with the candidate it is made of. -/
structure Chosen (words : TaskWords) (budgetTokens header : Nat)
    (candidates : List ContextCandidate) (taken : List (ContextItem × ContextCandidate))
    (selected : Selected) : Prop where
  items : selected.items = taken.map Prod.fst
  used : selected.usedTokens = usedAfter header selected.items
  counts : ∀ path, selected.fileCounts path =
    selected.items.countP fun item => decide (item.filePath = path)
  perFile : ∀ path, selected.fileCounts path ≤ 3
  length : selected.items.length ≤ maxItems
  apart : taken.Pairwise fun earlier later => substantiallyOverlaps earlier.1 later.2 = false
  made : ∀ n item candidate, taken[n]? = some (item, candidate) →
    candidate ∈ candidates ∧
      (makeItem words budgetTokens header (selected.items.take n) candidate).1 = item ∧
      Str.trim item.preview ≠ [] ∧
      (selected.truncated = false →
        (makeItem words budgetTokens header (selected.items.take n) candidate).2 = false)

/-- Why a candidate is not among the items. -/
def PassedOver (words : TaskWords) (budgetTokens header : Nat) (items : List ContextItem)
    (candidate : ContextCandidate) : Prop :=
  3 ≤ items.countP (fun item => decide (item.filePath = candidate.filePath)) ∨
    (∃ item ∈ items, substantiallyOverlaps item candidate = true) ∨
    ∃ earlier, earlier <+: items ∧
      (Str.trim (makeItem words budgetTokens header earlier candidate).1.preview = [] ∨
        budgetTokens - usedAfter header earlier <
          (makeItem words budgetTokens header earlier candidate).1.estimatedTokens)

theorem PassedOver.more {words : TaskWords} {budgetTokens header : Nat}
    {items more : List ContextItem} {candidate : ContextCandidate}
    (h : PassedOver words budgetTokens header items candidate) (hmore : items <+: more) :
    PassedOver words budgetTokens header more candidate := by
  rcases h with hfile | ⟨item, hmem, hoverlaps⟩ | ⟨earlier, hearlier, hreason⟩
  · exact .inl (Nat.le_trans hfile (hmore.sublist.countP_le))
  · exact .inr (.inl ⟨item, hmore.subset hmem, hoverlaps⟩)
  · exact .inr (.inr ⟨earlier, hearlier.trans hmore, hreason⟩)

section Select

variable {words : TaskWords} {budgetTokens header : Nat} {requiredRoles : List ContextRole}
  {candidates : List ContextCandidate}
  {taken : List (ContextItem × ContextCandidate)} {selected : Selected}

theorem Chosen.add {candidate : ContextCandidate} {item : ContextItem} {previewTruncated : Bool}
    (h : Chosen words budgetTokens header candidates taken selected) (hmem : candidate ∈ candidates)
    (hchoose : choose ⟨words, budgetTokens, requiredRoles⟩ selected candidate =
      .take item previewTruncated) :
    Chosen words budgetTokens header candidates (taken ++ [(item, candidate)])
      (selected.add item previewTruncated) := by
  obtain ⟨hlength, hfile, hoverlaps, hmake, hpreview⟩ := choose_take h.used hchoose
  have hpath : item.filePath = candidate.filePath := by
    rw [← show (makeItem words budgetTokens header selected.items candidate).1 = item by rw [hmake]]
    rfl
  have htaken : selected.items.length = taken.length := by rw [h.items, List.length_map]
  have hbefore : ∀ n ≤ taken.length, (selected.items ++ [item]).take n = selected.items.take n :=
    fun n hn => List.take_append_of_le_length (htaken ▸ hn)
  constructor
  · show selected.items ++ [item] = _
    rw [h.items, List.map_append]
    rfl
  · show saturatingAdd selected.usedTokens _ = usedAfter header (selected.items ++ [item])
    rw [usedAfter, List.foldl_append, h.used]
    rfl
  · intro path
    rw [Selected.add_items, List.countP_append, ← h.counts path, List.countP_singleton]
    by_cases heq : path = item.filePath
    · simp [Selected.add, heq]
    · simp [Selected.add, heq, Ne.symm heq]
  · intro path
    simp only [Selected.add]
    split
    · next heq =>
      rw [heq, hpath]
      exact hfile
    · exact h.perFile path
  · have hle := h.length
    show (selected.items ++ [item]).length ≤ _
    rw [List.length_append, List.length_singleton]
    omega
  · refine List.pairwise_append.mpr ⟨h.apart, List.pairwise_singleton _ _, ?_⟩
    intro earlier hearlier later hlater
    rw [List.mem_singleton.mp hlater]
    apply hoverlaps
    rw [h.items]
    exact List.mem_map_of_mem hearlier
  · intro n other source hn
    rw [Selected.add_items, Selected.add_truncated, Bool.or_eq_false_iff]
    rcases ForStd.getElem?_concat_eq_some hn with hn | ⟨rfl, hnew⟩
    · obtain ⟨hsource, hmade, hne, hflag⟩ := h.made n other source hn
      rw [hbefore n (Nat.le_of_lt (List.getElem?_eq_some_iff.mp hn).1)]
      exact ⟨hsource, hmade, hne, fun hfalse => hflag hfalse.1⟩
    · cases hnew
      rw [hbefore _ (Nat.le_refl _), List.take_of_length_le (Nat.le_of_eq htaken), hmake]
      exact ⟨hmem, rfl, hpreview, fun hfalse => hfalse.2⟩

theorem Chosen.stop (h : Chosen words budgetTokens header candidates taken selected) :
    Chosen words budgetTokens header candidates taken { selected with truncated := true } where
  items := h.items
  used := h.used
  counts := h.counts
  perFile := h.perFile
  length := h.length
  apart := h.apart
  made n item candidate hn := by
    obtain ⟨hmem, hmade, hne, -⟩ := h.made n item candidate hn
    exact ⟨hmem, hmade, hne, fun hfalse => nomatch hfalse⟩

/-- The loop takes more items, and passes over what it does not take unless it stops early. -/
theorem select_chosen (requiredRoles : List ContextRole)
    (h : Chosen words budgetTokens header candidates taken selected)
    (others : List ContextCandidate) (hothers : ∀ candidate ∈ others, candidate ∈ candidates) :
    ∃ more, Chosen words budgetTokens header candidates (taken ++ more)
        (select ⟨words, budgetTokens, requiredRoles⟩ others selected) ∧
      ((select ⟨words, budgetTokens, requiredRoles⟩ others selected).truncated = false →
        selected.truncated = false ∧ ∀ candidate ∈ others, candidate ∈ more.map Prod.snd ∨
          PassedOver words budgetTokens header
            (select ⟨words, budgetTokens, requiredRoles⟩ others selected).items candidate) := by
  induction others generalizing taken selected with
  | nil =>
    refine ⟨[], ?_, fun hfalse => ⟨hfalse, fun _ hmem => absurd hmem List.not_mem_nil⟩⟩
    rw [List.append_nil]
    exact h
  | cons candidate others ih =>
    have hmem := hothers candidate List.mem_cons_self
    have hrest := fun other hother => hothers other (List.mem_cons_of_mem _ hother)
    cases hchoose : choose ⟨words, budgetTokens, requiredRoles⟩ selected candidate with
    | stop =>
      simp only [select, hchoose]
      refine ⟨[], ?_, fun hfalse => nomatch hfalse⟩
      rw [List.append_nil]
      exact h.stop
    | skip =>
      simp only [select, hchoose]
      obtain ⟨more, hchosen, huntruncated⟩ := ih h hrest
      refine ⟨more, hchosen, fun hfalse => ?_⟩
      obtain ⟨hstart, hall⟩ := huntruncated hfalse
      refine ⟨hstart, List.forall_mem_cons.mpr ⟨.inr ?_, hall⟩⟩
      have hprefix : selected.items <+:
          (select ⟨words, budgetTokens, requiredRoles⟩ others selected).items := by
        rw [h.items, hchosen.items, List.map_append]
        exact List.prefix_append _ _
      have hskip := choose_skip h.used hchoose
      rw [h.counts] at hskip
      apply PassedOver.more _ hprefix
      exact hskip.imp_right (Or.imp_right fun hreason => ⟨_, List.prefix_refl _, hreason⟩)
    | take item previewTruncated =>
      simp only [select, hchoose]
      obtain ⟨more, hchosen, huntruncated⟩ := ih (h.add hmem hchoose) hrest
      rw [List.append_assoc] at hchosen
      refine ⟨(item, candidate) :: more, hchosen, fun hfalse => ?_⟩
      obtain ⟨hstart, hall⟩ := huntruncated hfalse
      refine ⟨(Bool.or_eq_false_iff.mp hstart).1, List.forall_mem_cons.mpr ⟨.inl ?_, ?_⟩⟩
      · exact List.mem_cons_self
      · exact fun other hother => (hall other hother).imp_left (List.mem_cons_of_mem _)

end Select

/-! ## Every candidate is looked at -/

theorem claim_mem {candidates claimed : List (ContextCandidate × Nat)} (roles : List ContextRole)
    (h : ∀ candidate ∈ claimed, candidate ∈ candidates) :
    ∀ candidate ∈ claim candidates roles claimed, candidate ∈ candidates := by
  induction roles generalizing claimed with
  | nil => exact h
  | cons role roles ih =>
    unfold claim
    split
    · exact ih h
    · next candidate hfind =>
      apply ih
      intro other hother
      rcases List.mem_append.mp hother with hold | hnew
      · exact h other hold
      · rw [List.mem_singleton.mp hnew]
        exact List.mem_of_find?_eq_some hfind

theorem mem_orderCandidates {candidates : List ContextCandidate} {candidate : ContextCandidate} :
    candidate ∈ orderCandidates candidates ↔ candidate ∈ candidates := by
  have hclaimed : ∀ entry ∈ claim candidates.zipIdx leadingRoles [], entry ∈ candidates.zipIdx :=
    claim_mem leadingRoles fun _ h => absurd h List.not_mem_nil
  unfold orderCandidates
  dsimp only
  generalize claim candidates.zipIdx leadingRoles [] = claimed at hclaimed ⊢
  simp only [List.map_append, List.mem_append, List.mem_map, List.mem_filter]
  constructor
  · rintro (⟨entry, hentry, rfl⟩ | ⟨entry, ⟨hentry, -⟩, rfl⟩)
    · exact List.fst_mem_of_mem_zipIdx (hclaimed entry hentry)
    · exact List.fst_mem_of_mem_zipIdx hentry
  · intro hmem
    obtain ⟨index, hindex⟩ := List.mem_iff_getElem?.mp hmem
    have hentry : (candidate, index) ∈ candidates.zipIdx := List.mem_zipIdx_iff_getElem?.mpr hindex
    by_cases htaken : (claimed.map Prod.snd).contains index = true
    · obtain ⟨other, hother, hsame⟩ := List.mem_map.mp (List.contains_iff_mem.mp htaken)
      -- The claimed entry with this index is this candidate.
      have hget := List.mem_zipIdx_iff_getElem?.mp (hclaimed other hother)
      rw [hsame, hindex] at hget
      exact .inl ⟨other, hother, (Option.some.inj hget).symm⟩
    · exact .inr ⟨(candidate, index), ⟨hentry, by simpa using htaken⟩, rfl⟩

/-! ## Dropping items -/

/-- The loop that drops items changes only the items and what is counted from them. -/
theorem dropItems_spec (rounds : Nat) (bundle : ContextBundle)
    (hused : bundle.usedTokens = estimateTokens (renderMarkdown bundle))
    (hrounds : bundle.items.length ≤ rounds) :
    (dropItems rounds bundle).usedTokens =
        estimateTokens (renderMarkdown (dropItems rounds bundle)) ∧
      ((dropItems rounds bundle).usedTokens ≤ bundle.budgetTokens ∨
        (dropItems rounds bundle).items = []) ∧
      (∃ items used truncated coverage, items <+: bundle.items ∧
        (truncated = false → items = bundle.items ∧ bundle.truncated = false) ∧
        dropItems rounds bundle = { bundle with
          items, usedTokens := used, truncated, coverage }) := by
  induction rounds generalizing bundle with
  | zero =>
    refine ⟨hused, .inr (List.length_eq_zero_iff.mp (Nat.le_zero.mp hrounds)), ?_⟩
    exact ⟨bundle.items, bundle.usedTokens, bundle.truncated, bundle.coverage,
      List.prefix_refl _, fun hfalse => ⟨rfl, hfalse⟩, rfl⟩
  | succ rounds ih =>
    unfold dropItems
    split
    · next hover =>
      obtain ⟨used, hfinal⟩ := finalizeBundleMetrics_eq
        { bundle with items := bundle.items.dropLast, truncated := true }
      have hcounted := finalizeBundleMetrics_used
        { bundle with items := bundle.items.dropLast, truncated := true }
      rw [hfinal] at hcounted ⊢
      obtain ⟨hestimate, hbudget, items, last, truncated, coverage, hprefix, htrue, heq⟩ :=
        ih _ hcounted (by rw [List.length_dropLast]; omega)
      refine ⟨hestimate, hbudget, items, last, truncated, coverage,
        hprefix.trans (List.dropLast_prefix _), fun hfalse => ?_, heq⟩
      exact absurd (htrue hfalse).2 (by simp)
    · next hfits =>
      rw [not_and_or, not_lt, not_not] at hfits
      exact ⟨hused, hfits, bundle.items, bundle.usedTokens, bundle.truncated, bundle.coverage,
        List.prefix_refl _, fun hfalse => ⟨rfl, hfalse⟩, rfl⟩

/-! ## The bundle -/

/-- The tokens that the header of a bundle was taken to need. -/
def headerOf (bundle : ContextBundle) : Nat :=
  estimatedHeaderTokens bundle.task bundle.workspace bundle.budgetTokens bundle.anchorSymbols
    bundle.candidateCount bundle.changeScope bundle.referencedPaths

/-- What a bundle says about the items, each with the candidate that it is made of. -/
structure ItemsOf (source : SourcePath → Str) (words : TaskWords)
    (candidates : List ContextCandidate) (bundle : ContextBundle)
    (taken : List (ContextItem × ContextCandidate)) : Prop where
  items : bundle.items = taken.map Prod.fst
  shows : ∀ n item candidate, taken[n]? = some (item, candidate) → candidate ∈ candidates ∧
    item.filePath = candidate.filePath ∧ ShowsSource source
      (itemBudget bundle.budgetTokens (headerOf bundle) (bundle.items.take n) candidate) item
  apart : taken.Pairwise fun earlier later => substantiallyOverlaps earlier.1 later.2 = false
  whole : bundle.truncated = false →
    ∀ entry ∈ taken, entry.1.preview = Str.trim entry.2.preview
  complete : bundle.truncated = false → ∀ candidate ∈ candidates,
    candidate ∈ taken.map Prod.snd ∨
      PassedOver words bundle.budgetTokens (headerOf bundle) bundle.items candidate

structure Promises (source : SourcePath → Str) (task : ContextTask) (budgetTokens : Nat)
    (referencedPaths : List ContextInputPath) (candidates : List ContextCandidate)
    (bundle : ContextBundle) : Prop where
  asked : bundle.budgetTokens = budgetTokens
  length : bundle.items.length ≤ maxItems
  perFile : ∀ path, bundle.items.countP (fun item => decide (item.filePath = path)) ≤ 3
  used : bundle.usedTokens = estimateTokens (renderMarkdown bundle)
  budget : bundle.usedTokens ≤ bundle.budgetTokens ∨ bundle.items = []
  taken : ∃ taken, ItemsOf source task.words candidates bundle taken
  shortened : bundle.truncated = false →
    bundle.task = Str.trim task.text ∧ bundle.referencedPaths = referencedPaths

/-- The first items of the loop, under the header they were chosen for. -/
theorem itemsOf_chosen {source : SourcePath → Str} {words : TaskWords}
    {candidates : List ContextCandidate} {taken : List (ContextItem × ContextCandidate)}
    {selected : Selected} {bundle : ContextBundle}
    (hsource : ∀ candidate ∈ candidates, PreviewsSource source candidate)
    (h : Chosen words bundle.budgetTokens (headerOf bundle) candidates taken selected)
    (hitems : bundle.items <+: selected.items)
    (htruncated : bundle.truncated = false →
      bundle.items = selected.items ∧ selected.truncated = false)
    (hcomplete : selected.truncated = false → ∀ candidate ∈ candidates,
      candidate ∈ taken.map Prod.snd ∨
        PassedOver words bundle.budgetTokens (headerOf bundle) selected.items candidate) :
    ItemsOf source words candidates bundle (taken.take bundle.items.length) := by
  have hmap : bundle.items = (taken.take bundle.items.length).map Prod.fst := by
    rw [List.map_take, ← h.items]
    exact List.prefix_iff_eq_take.mp hitems
  have hall : bundle.truncated = false → taken.take bundle.items.length = taken := by
    intro hfalse
    rw [(htruncated hfalse).1, h.items, List.length_map, List.take_length]
  have hmade : ∀ n item candidate,
      (taken.take bundle.items.length)[n]? = some (item, candidate) →
        taken[n]? = some (item, candidate) ∧ selected.items.take n = bundle.items.take n := by
    intro n item candidate hn
    have hlt : n < bundle.items.length := by
      have hlength := (List.getElem?_eq_some_iff.mp hn).1
      rw [List.length_take] at hlength
      omega
    rw [List.getElem?_take_of_lt hlt] at hn
    refine ⟨hn, ?_⟩
    rw [List.prefix_iff_eq_take.mp hitems, List.take_take, Nat.min_eq_left (Nat.le_of_lt hlt)]
  constructor
  · exact hmap
  · intro n item candidate hn
    obtain ⟨hn, htake⟩ := hmade n item candidate hn
    obtain ⟨hmem, hitem, hne, -⟩ := h.made n item candidate hn
    rw [htake] at hitem
    refine ⟨hmem, ?_, ?_⟩
    · rw [← hitem]
      rfl
    · rw [← hitem] at hne ⊢
      exact makeItem_shows (hsource candidate hmem) hne
  · exact h.apart.sublist (List.take_sublist _ _)
  · intro hfalse entry hentry
    obtain ⟨n, hn⟩ := List.mem_iff_getElem?.mp hentry
    obtain ⟨hn, -⟩ := hmade n entry.1 entry.2 hn
    obtain ⟨-, hitem, -, hflag⟩ := h.made n entry.1 entry.2 hn
    rw [← hitem]
    exact truncateToTokenBudget_whole (hflag (htruncated hfalse).2)
  · intro hfalse
    rw [hall hfalse, (htruncated hfalse).1]
    exact hcomplete (htruncated hfalse).2

theorem promises_of_chosen {source : SourcePath → Str} {task : ContextTask} {budgetTokens : Nat}
    {referencedPaths : List ContextInputPath} {candidates : List ContextCandidate}
    {taken : List (ContextItem × ContextCandidate)} {selected : Selected} {bundle : ContextBundle}
    (hsource : ∀ candidate ∈ candidates, PreviewsSource source candidate)
    (hasked : bundle.budgetTokens = budgetTokens) (hitems : bundle.items = selected.items)
    (htruncated : bundle.truncated = selected.truncated)
    (h : Chosen task.words budgetTokens (headerOf bundle) candidates taken selected)
    (hcomplete : selected.truncated = false → ∀ candidate ∈ candidates,
      candidate ∈ taken.map Prod.snd ∨
        PassedOver task.words budgetTokens (headerOf bundle) selected.items candidate)
    (hshortened : selected.truncated = false →
      bundle.task = Str.trim task.text ∧ bundle.referencedPaths = referencedPaths) :
    Promises source task budgetTokens referencedPaths candidates
      (dropItems (finalizeBundleMetrics bundle).items.length (finalizeBundleMetrics bundle)) := by
  subst hasked
  have hcounted := finalizeBundleMetrics_used bundle
  obtain ⟨first, hfinal⟩ := finalizeBundleMetrics_eq bundle
  rw [hfinal] at hcounted ⊢
  obtain ⟨hestimate, hbudget, items, used, truncated, coverage, hprefix, hkept, heq⟩ :=
    dropItems_spec _ _ hcounted (Nat.le_refl _)
  rw [heq] at hestimate hbudget ⊢
  replace hprefix : items <+: selected.items := hitems ▸ hprefix
  replace hkept : truncated = false → items = selected.items ∧ selected.truncated = false := by
    intro hfalse
    rw [← hitems, ← htruncated]
    exact hkept hfalse
  constructor
  · rfl
  · exact Nat.le_trans hprefix.length_le h.length
  · intro path
    apply Nat.le_trans hprefix.sublist.countP_le
    rw [← h.counts]
    exact h.perFile path
  · exact hestimate
  · exact hbudget
  · exact ⟨_, itemsOf_chosen hsource h hprefix hkept hcomplete⟩
  · exact fun hfalse => hshortened (hkept hfalse).2

/-- For every candidate list whose previews are the lines of their files: the promises hold. -/
theorem assembleBundle_promises {source : SourcePath → Str}
    (toJson : ContextChange → Option Str) (task : ContextTask) (workspace : Str)
    (budgetTokens : Nat) (anchorSymbols : List Str) (changeScope : Option ContextChangeScope)
    (referencedPaths : List ContextInputPath) {candidates : List ContextCandidate}
    (hsource : ∀ candidate ∈ candidates, PreviewsSource source candidate) :
    Promises source task budgetTokens referencedPaths candidates
      (assembleBundle toJson task workspace budgetTokens anchorSymbols changeScope referencedPaths
        candidates) := by
  unfold assembleBundle
  dsimp only
  generalize changeScope.map (boundChangeScope toJson · budgetTokens) = scope
  generalize htask : truncateToTokenBudget task.words task.text _ = outputTask
  generalize (List.filter _ _ : List ContextRole) = requiredRoles
  generalize hheader : estimatedHeaderTokens outputTask.1 workspace budgetTokens anchorSymbols _
    scope _ = header
  have hmem : ∀ candidate, candidate ∈ orderCandidates (candidates.insertionSort before) ↔
      candidate ∈ candidates := by
    intro candidate
    rw [mem_orderCandidates]
    exact (List.perm_insertionSort before candidates).mem_iff
  have hstart : Chosen task.words budgetTokens header candidates [] ⟨[], header, fun _ => 0,
      outputTask.2.1 || decide (clamp (budgetTokens / 64) 1 32 < referencedPaths.length)⟩ :=
    ⟨rfl, rfl, fun _ => rfl, fun _ => Nat.zero_le _, Nat.zero_le _, .nil,
      fun _ _ _ hn => nomatch hn⟩
  obtain ⟨taken, hchosen, huntruncated⟩ := select_chosen requiredRoles hstart
    (orderCandidates (candidates.insertionSort before)) (fun candidate => (hmem candidate).mp)
  subst hheader
  refine promises_of_chosen hsource rfl ?_ ?_ hchosen ?_ ?_
  · rfl
  · rfl
  · intro hfalse candidate hcandidate
    exact (huntruncated hfalse).2 candidate ((hmem candidate).mpr hcandidate)
  · intro hfalse
    obtain ⟨hwhole, hpaths⟩ := Bool.or_eq_false_iff.mp (huntruncated hfalse).1
    rw [← htask] at hwhole ⊢
    exact ⟨truncateToTokenBudget_whole hwhole,
      List.take_of_length_le (Nat.le_of_not_lt (of_decide_eq_false hpaths))⟩

/-! ## Candidates that are left out -/

/-- Two files: one of short lines with a long one among them, and one line of backticks. -/
private def sampleSource (path : SourcePath) : Str :=
  if path = [['q']] then 'a' :: List.replicate 150 '\x60'
  else Str.join ['\n'] (List.replicate 8 ['a'] ++ List.replicate 2 (List.replicate 27 '.') ++
    [List.replicate 120 '.'] ++ List.replicate 3 ['b'])

private def sampleCandidate (path : SourcePath) (first last : Nat) (score : Int) :
    ContextCandidate where
  filePath := path
  startLine := first
  endLine := last
  preview := Str.join ['\n'] (linesAt (sampleSource path) first last)
  sources := []
  roles := []
  reasons := []
  fusedScore := score

private def sampleBundle (budgetTokens : Nat) (candidates : List ContextCandidate) :
    ContextBundle :=
  assembleBundle (fun _ => none) ⟨[], [], []⟩ ['/'] budgetTokens [] none [] candidates

private theorem sampleCandidate_previews {path : SourcePath} {first last : Nat} {score : Int}
    (hfirst : 1 ≤ first) (hne : linesAt (sampleSource path) first last ≠ []) :
    PreviewsSource sampleSource (sampleCandidate path first last score) := by
  refine ⟨hfirst, Str.isText_join hne fun line hline => ?_⟩
  exact Str.newline_not_mem_lines (List.mem_of_mem_drop (List.mem_of_mem_take hline))

theorem assembleBundle_promises_sample :
    (∀ candidate ∈ [sampleCandidate [['p']] 1 10 2, sampleCandidate [['p']] 9 14 1],
      PreviewsSource sampleSource candidate) ∧
    Promises sampleSource ⟨[], [], []⟩ 300 []
      [sampleCandidate [['p']] 1 10 2, sampleCandidate [['p']] 9 14 1]
      (sampleBundle 300 [sampleCandidate [['p']] 1 10 2, sampleCandidate [['p']] 9 14 1]) := by
  have hsource : ∀ candidate ∈
      [sampleCandidate [['p']] 1 10 2, sampleCandidate [['p']] 9 14 1],
      PreviewsSource sampleSource candidate := by
    intro candidate hcandidate
    rcases List.mem_pair.mp hcandidate with rfl | rfl
    · exact sampleCandidate_previews (by decide) (by decide)
    · exact sampleCandidate_previews (by decide) (by decide)
  exact ⟨hsource, assembleBundle_promises (fun _ => none) ⟨[], [], []⟩ ['/'] 300 [] none [] hsource⟩

/-- A fourth candidate of a file is left out of an untruncated bundle, and so is one whose fence
    does not fit. A shortened preview overlaps an item that the whole one did not overlap. -/
theorem bundle_leaves_out_and_overlaps :
    ((sampleBundle 400 [sampleCandidate [['p']] 1 1 4, sampleCandidate [['p']] 3 3 3,
        sampleCandidate [['p']] 5 5 2, sampleCandidate [['p']] 7 7 1]).items.map
          ContextItem.startLine = [1, 3, 5] ∧
      (sampleBundle 400 [sampleCandidate [['p']] 1 1 4, sampleCandidate [['p']] 3 3 3,
        sampleCandidate [['p']] 5 5 2, sampleCandidate [['p']] 7 7 1]).truncated = false) ∧
    ((sampleBundle 256 [sampleCandidate [['q']] 1 1 1]).items = [] ∧
      (sampleBundle 256 [sampleCandidate [['q']] 1 1 1]).truncated = false) ∧
    (sampleBundle 300 [sampleCandidate [['p']] 1 10 2, sampleCandidate [['p']] 9 14 1]).items.map
        (fun item => (item.filePath, item.startLine, item.endLine)) =
      [([['p']], 1, 10), ([['p']], 9, 10)] ∧
    rangesSubstantiallyOverlap 1 10 9 10 = true := by
  decide +kernel

end ContextBundle

end Ivygrep.Native
