import Ivygrep.ForStd.Quota
import Ivygrep.Native.ScoreFilter

/-!
# What the lexical vote keeps

The list that comes of the pass with the lexical vote and the pass without it: which chunks it has,
in which parts and with which scores, and where the search cuts the backfill off.

## Key results

- `filterMeaningfulScores_parts`: one pass keeps candidates as they are, and fills up behind them
- `rescuedOf_spec`: the candidates of new files
- `mergeVotes_keeps`: the list of both passes
- `subnormal_backfill_precedes`: scores that are too small for the cap
-/

namespace Ivygrep.Native

open ForStd

/-! ## Scores -/

/-- A finite score that `0.99` lowers: it is not one of the 50 least numbers. -/
def IsLowered (score : Binary32) : Prop :=
  51 ≤ score.bits.toNat ∧ score.bits.toNat < Binary32.infinityBits

theorem decay_nonNeg {score : Binary32} (h : score.NonNeg) : (decay score).NonNeg :=
  h.scale (by decide)

theorem decay_le {score : Binary32} (h : score.NonNeg) : decay score ≤ score :=
  Binary32.scale_le h (by decide)

theorem decay_lt {score : Binary32} (h : IsLowered score) : decay score < score := by
  refine Binary32.scale_lt (by decide) h.2 ?_
  have hlow := h.1
  unfold Binary32.significand
  split <;> omega

theorem maxFinite_nonNeg : Binary32.maxFinite.NonNeg := by
  unfold Binary32.NonNeg
  decide

theorem maxFinite_isLowered : IsLowered Binary32.maxFinite := by
  constructor <;> decide

theorem minNum_choice (x y : Binary32) :
    Binary32.minNum x y = x ∨ Binary32.minNum x y = y := by
  unfold Binary32.minNum
  split
  · exact .inr rfl
  · split
    · exact .inl rfl
    · exact min_choice x y

theorem and_sourceBackfill (sources : SourceMask) :
    (sources ||| sourceBackfill) &&& sourceBackfill = sourceBackfill := by
  apply UInt16.toBitVec_inj.mp
  rw [UInt16.toBitVec_and, UInt16.toBitVec_or]
  ext i
  simp +contextual

/-- The candidates of the lists are of those that the loop has seen. -/
structure Sifted.From (sifted : Sifted) (seen : List ScoredRow) : Prop where
  filtered : sifted.filtered.Sublist seen
  backfill : ∀ item ∈ sifted.backfill, item ∈ seen
  fallback : ∀ item ∈ sifted.fallback, item ∈ seen

namespace ScoreFilter

variable (filter : ScoreFilter)

/-! ## One pass -/

theorem siftOne_from (ranked : List ScoredRow) (enableBackfill : Bool) {sifted : Sifted}
    {seen : List ScoredRow} (h : sifted.From seen) (entry : ScoredRow × Nat) :
    (filter.siftOne ranked enableBackfill sifted entry).From (seen ++ [entry.1]) := by
  have hfiltered := h.filtered.trans (List.sublist_append_left seen [entry.1])
  have hbackfill : ∀ item ∈ sifted.backfill, item ∈ seen ++ [entry.1] := fun item hitem =>
    List.mem_append_left _ (h.backfill item hitem)
  have hfallback : ∀ item ∈ sifted.fallback, item ∈ seen ++ [entry.1] := fun item hitem =>
    List.mem_append_left _ (h.fallback item hitem)
  unfold siftOne
  simp only
  split
  · exact ⟨h.filtered.append (List.Sublist.refl _), hbackfill, hfallback⟩
  · split
    · refine ⟨hfiltered, fun item hitem => ?_, hfallback⟩
      rcases List.mem_append.mp hitem with hitem | hitem
      · exact hbackfill item hitem
      · exact List.mem_append_right _ hitem
    · split
      · refine ⟨hfiltered, hbackfill, fun item hitem => ?_⟩
        obtain rfl : entry.1 = item := by simpa using hitem
        exact List.mem_append_right _ (List.mem_singleton_self _)
      · exact ⟨hfiltered, hbackfill, hfallback⟩

theorem sift_from (ranked : List ScoredRow) (enableBackfill : Bool) :
    (filter.sift ranked enableBackfill).From ranked := by
  have hrun : ∀ (entries : List (ScoredRow × Nat)) (sifted : Sifted) (seen : List ScoredRow),
      sifted.From seen →
        (entries.foldl (filter.siftOne ranked enableBackfill) sifted).From
          (seen ++ entries.map Prod.fst) := by
    intro entries
    induction entries with
    | nil =>
      intro sifted seen h
      simpa using h
    | cons entry entries ih =>
      intro sifted seen h
      have hrest := ih _ _ (filter.siftOne_from ranked enableBackfill h entry)
      rw [List.append_assoc] at hrest
      exact hrest
  have hall := hrun ranked.zipIdx ⟨[], [], none⟩ [] ⟨.slnil, nofun, nofun⟩
  rwa [List.zipIdx_map_fst, List.nil_append] at hall

/-- A candidate of the backfill with a score and the mark of the backfill. -/
def IsFilled (items : List ScoredRow) (item : ScoredRow) : Prop :=
  item.isBackfill ∧ ∃ source ∈ items, item.chunk = source.chunk

theorem fillBackfill_isFilled (items : List ScoredRow) (room : Nat) (selected : List UInt64)
    (next : Binary32) :
    (∀ item ∈ fillBackfill room selected next items, IsFilled items item ∧ item.key ∉ selected) ∧
      ((fillBackfill room selected next items).map RankedCandidate.key).Nodup := by
  induction items generalizing room selected next with
  | nil => simp [fillBackfill]
  | cons first items ih =>
    have hlater : ∀ item, IsFilled items item → IsFilled (first :: items) item := by
      rintro item ⟨hmark, source, hsource, hchunk⟩
      exact ⟨hmark, source, List.mem_cons_of_mem _ hsource, hchunk⟩
    unfold fillBackfill
    split
    · obtain ⟨hitems, hnodup⟩ := ih room selected next
      exact ⟨fun item hitem => ⟨hlater item (hitems item hitem).1, (hitems item hitem).2⟩, hnodup⟩
    · next hnew =>
      have hfirst : ∀ score, IsFilled (first :: items)
          { first with score := score, sources := first.sources ||| sourceBackfill } := by
        intro score
        refine ⟨?_, first, List.mem_cons_self, rfl⟩
        rw [RankedCandidate.isBackfill, and_sourceBackfill]
        decide
      simp only
      split
      · refine ⟨fun item hitem => ?_, by simp⟩
        rw [List.mem_singleton.mp hitem]
        exact ⟨hfirst _, hnew⟩
      · obtain ⟨hitems, hnodup⟩ := ih (room - 1) (first.key :: selected)
          (decay (Binary32.minNum first.score next))
        refine ⟨fun item hitem => ?_, ?_⟩
        · rcases List.mem_cons.mp hitem with rfl | hitem
          · exact ⟨hfirst _, hnew⟩
          · obtain ⟨hfilled, hkey⟩ := hitems item hitem
            exact ⟨hlater item hfilled, fun hmem => hkey (List.mem_cons_of_mem _ hmem)⟩
        · rw [List.map_cons, List.nodup_cons]
          refine ⟨fun hmem => ?_, hnodup⟩
          obtain ⟨item, hitem, hkey⟩ := List.mem_map.mp hmem
          apply (hitems item hitem).2
          rw [hkey]
          exact List.mem_cons_self

theorem fillBackfill_nonNeg {items : List ScoredRow} (hitems : ∀ item ∈ items, item.score.NonNeg)
    (room : Nat) (selected : List UInt64) {next : Binary32} (hnext : next.NonNeg) :
    ∀ item ∈ fillBackfill room selected next items, item.score.NonNeg := by
  induction items generalizing room selected next with
  | nil => simp [fillBackfill]
  | cons first items ih =>
    rw [List.forall_mem_cons] at hitems
    unfold fillBackfill
    split
    · exact ih hitems.2 room selected hnext
    · have hscore := hitems.1.minNum hnext
      rw [List.forall_mem_cons]
      refine ⟨hscore, ?_⟩
      split
      · simp
      · exact ih hitems.2 _ _ (decay_nonNeg hscore)

theorem nextScore_forall {P : Binary32 → Prop} (step : Binary32 → Binary32) {items : List ScoredRow}
    (hitems : ∀ item ∈ items, P (step item.score)) (hmax : P Binary32.maxFinite) :
    P (nextScore step items) := by
  unfold nextScore
  cases hlast : items.getLast? with
  | none => exact hmax
  | some last => exact hitems last (List.mem_of_getLast? hlast)

/-- What a pass returns: candidates as they are, and the backfill behind them. -/
structure Parts (ranked result front filled : List ScoredRow) : Prop where
  eq_append : result = front ++ filled
  sublist : front.Sublist ranked
  isFilled : ∀ item ∈ filled, IsFilled ranked item ∧ item.key ∉ front.map RankedCandidate.key
  nodup : (filled.map RankedCandidate.key).Nodup
  nonNeg : (∀ item ∈ ranked, item.score.NonNeg) → ∀ item ∈ filled, item.score.NonNeg

theorem parts_of_sublist {ranked result : List ScoredRow} (h : result.Sublist ranked) :
    Parts ranked result result [] :=
  ⟨(List.append_nil _).symm, h, nofun, .nil, fun _ => nofun⟩

theorem filterMeaningfulScores_parts (ranked : List ScoredRow) (enableBackfill : Bool) :
    ∃ front filled, Parts ranked (filter.filterMeaningfulScores ranked enableBackfill) front
      filled := by
  unfold filterMeaningfulScores
  split
  · refine ⟨_, _, parts_of_sublist ?_⟩
    unfold filterSemanticOnlyScores
    split
    · exact (List.take_sublist _ _).trans List.filter_sublist
    · exact List.nil_sublist _
  · split
    · exact ⟨_, _, parts_of_sublist (List.Sublist.refl _)⟩
    · refine ⟨_, _, parts_of_sublist ?_⟩
      split
      · exact List.Sublist.refl _
      · exact List.nil_sublist _
    · have hsift := filter.sift_from ranked enableBackfill
      generalize filter.sift ranked enableBackfill = sifted at hsift
      -- The fallback is a list of one candidate when nothing was kept.
      have hfront : (if sifted.filtered.isEmpty then sifted.fallback.toList
          else sifted.filtered).Sublist ranked := by
        split
        · cases hfallback : sifted.fallback with
          | none => exact List.nil_sublist _
          | some item => exact List.singleton_sublist.mpr (hsift.fallback item hfallback)
        · exact hsift.filtered
      simp only
      generalize (if sifted.filtered.isEmpty then sifted.fallback.toList
        else sifted.filtered) = front at hfront
      split
      · obtain ⟨hfilled, hnodup⟩ := fillBackfill_isFilled sifted.backfill
          (minFilteredResults - front.length) (front.map RankedCandidate.key)
          (nextScore decay front)
        refine ⟨front, _, rfl, hfront, fun item hitem => ?_, hnodup, fun hnonNeg => ?_⟩
        · obtain ⟨⟨hmark, source, hsource, hchunk⟩, hkey⟩ := hfilled item hitem
          exact ⟨⟨hmark, source, hsift.backfill source hsource, hchunk⟩, hkey⟩
        · apply fillBackfill_nonNeg
          · exact fun item hitem => hnonNeg item (hsift.backfill item hitem)
          · exact nextScore_forall decay
              (fun item hitem => decay_nonNeg (hnonNeg item (hfront.subset hitem)))
              maxFinite_nonNeg
      · exact ⟨_, _, parts_of_sublist hfront⟩

section

variable {filter} {ranked result front filled : List ScoredRow}

/-- What a pass returns are candidates, unchanged unless they are backfilled. -/
theorem Parts.exists_source (h : Parts ranked result front filled) :
    ∀ item ∈ result, ∃ source ∈ ranked, item.chunk = source.chunk ∧
      (item.isBackfill = false → item = source) := by
  intro item hitem
  rw [h.eq_append, List.mem_append] at hitem
  rcases hitem with hitem | hitem
  · exact ⟨item, h.sublist.subset hitem, rfl, fun _ => rfl⟩
  · obtain ⟨⟨hmark, source, hsource, hchunk⟩, -⟩ := h.isFilled item hitem
    exact ⟨source, hsource, hchunk, fun hnot => absurd hmark (by simp [hnot])⟩

theorem Parts.keys_nodup (h : Parts ranked result front filled)
    (hkeys : (ranked.map RankedCandidate.key).Nodup) : (result.map RankedCandidate.key).Nodup := by
  rw [h.eq_append, List.map_append, List.nodup_append']
  refine ⟨hkeys.sublist (h.sublist.map _), h.nodup, fun key hfront hfilled => ?_⟩
  obtain ⟨item, hitem, rfl⟩ := List.mem_map.mp hfilled
  exact (h.isFilled item hitem).2 hfront

theorem Parts.kept_sublist (h : Parts ranked result front filled) :
    (result.filter fun item => !item.isBackfill).Sublist ranked := by
  have hnone : filled.filter (fun item => !item.isBackfill) = [] := by
    rw [List.filter_eq_nil_iff]
    intro item hitem
    simp [(h.isFilled item hitem).1.1]
  rw [h.eq_append, List.filter_append, hnone, List.append_nil]
  exact List.filter_sublist.trans h.sublist

theorem Parts.scores_nonNeg (h : Parts ranked result front filled)
    (hnonNeg : ∀ item ∈ ranked, item.score.NonNeg) : ∀ item ∈ result, item.score.NonNeg := by
  rw [h.eq_append, List.forall_mem_append]
  exact ⟨fun item hitem => hnonNeg item (h.sublist.subset hitem), h.nonNeg hnonNeg⟩

end

/-! ## Caps -/

/-- Only the scores of a list change. -/
def SameButScores (left right : List ScoredRow) : Prop :=
  List.Forall₂ (fun a b : ScoredRow => a.chunk = b.chunk ∧ a.sources = b.sources) left right

theorem capScores_same (step : Binary32 → Binary32) (next : Binary32) (items : List ScoredRow) :
    SameButScores (capScores step next items) items := by
  induction items generalizing next with
  | nil => exact .nil
  | cons item items ih => exact .cons ⟨rfl, rfl⟩ (ih _)

theorem SameButScores.map_eq {β : Type} {left right : List ScoredRow} (h : SameButScores left right)
    {f : ScoredRow → β} (hf : ∀ a b : ScoredRow, a.chunk = b.chunk → a.sources = b.sources →
      f a = f b) : left.map f = right.map f := by
  induction h with
  | nil => rfl
  | cons hsame _ ih => rw [List.map_cons, List.map_cons, hf _ _ hsame.1 hsame.2, ih]

theorem SameButScores.exists_of_mem {left right : List ScoredRow} (h : SameButScores left right)
    {item : ScoredRow} (hitem : item ∈ left) :
    ∃ source ∈ right, item.chunk = source.chunk ∧ item.sources = source.sources := by
  have hmem := List.mem_map_of_mem (f := fun item : ScoredRow => (item.chunk, item.sources)) hitem
  rw [h.map_eq fun a b hchunk hsources => by rw [hchunk, hsources]] at hmem
  obtain ⟨source, hsource, heq⟩ := List.mem_map.mp hmem
  rw [Prod.mk.injEq] at heq
  exact ⟨source, hsource, heq.1.symm, heq.2.symm⟩

theorem capScores_forall {P : Binary32 → Prop} {next : Binary32} {items : List ScoredRow}
    (hnext : P next) (hitems : ∀ item ∈ items, P item.score) :
    ∀ item ∈ capScores id next items, P item.score := by
  induction items generalizing next with
  | nil => simp [capScores]
  | cons item items ih =>
    rw [List.forall_mem_cons] at hitems
    have hscore : P (Binary32.minNum item.score next) := by
      rcases minNum_choice item.score next with h | h
      · rw [h]
        exact hitems.1
      · rw [h]
        exact hnext
    rw [capScores, List.forall_mem_cons]
    exact ⟨hscore, ih hscore hitems.2⟩

/-- Capped scores do not increase, and the cap is above them. -/
theorem capScores_sorted (step : Binary32 → Binary32)
    (hstep : ∀ score : Binary32, score.NonNeg → (step score).NonNeg ∧ step score ≤ score)
    {next : Binary32} (hnext : next.NonNeg) {items : List ScoredRow}
    (hitems : ∀ item ∈ items, item.score.NonNeg) :
    (capScores step next items).Pairwise (fun left right => right.score ≤ left.score) ∧
      ∀ item ∈ capScores step next items, item.score ≤ next := by
  induction items generalizing next with
  | nil => simp [capScores]
  | cons item items ih =>
    rw [List.forall_mem_cons] at hitems
    have hscore := hitems.1.minNum hnext
    have hle : Binary32.minNum item.score next ≤ next := by
      rw [hitems.1.minNum_eq hnext]
      exact min_le_right _ _
    obtain ⟨hnonNeg, hlower⟩ := hstep _ hscore
    obtain ⟨hsorted, hcapped⟩ := ih hnonNeg hitems.2
    rw [capScores, List.pairwise_cons, List.forall_mem_cons]
    exact ⟨⟨fun later hlater => (hcapped later hlater).trans hlower, hsorted⟩, hle,
      fun later hlater => ((hcapped later hlater).trans hlower).trans hle⟩

/-- Below a sorted list: its cap is the step of its least score. -/
theorem nextScore_of_sorted (step : Binary32 → Binary32) {items : List ScoredRow}
    (hsorted : items.Pairwise fun left right => right.score ≤ left.score) {item : ScoredRow}
    (hitem : item ∈ items) :
    ∃ last ∈ items, nextScore step items = step last.score ∧ last.score ≤ item.score := by
  obtain ⟨before, last, rfl⟩ := List.eq_nil_or_concat items |>.resolve_left (by
    rintro rfl
    simp at hitem)
  rw [List.concat_eq_append] at hitem hsorted ⊢
  refine ⟨last, by simp, by simp [nextScore], ?_⟩
  rcases List.mem_append.mp hitem with hmem | hmem
  · exact (List.pairwise_append.mp hsorted).2.2 item hmem last (List.mem_singleton_self _)
  · rw [List.mem_singleton.mp hmem]

/-! ## Rescued candidates -/

section

variable {ranked : List ScoredRow}

theorem eq_of_key_eq (hkeys : (ranked.map RankedCandidate.key).Nodup) {left right : ScoredRow}
    (hleft : left ∈ ranked) (hright : right ∈ ranked) (h : left.key = right.key) : left = right :=
  List.inj_on_of_nodup_map hkeys hleft hright h

theorem votedScore_eq (hkeys : (ranked.map RankedCandidate.key).Nodup) {source item : ScoredRow}
    (hsource : source ∈ ranked) (hkey : item.key = source.key) :
    votedScore ranked item = source.score := by
  unfold votedScore
  cases hfind : ranked.reverse.find? fun other => other.key == item.key with
  | none =>
    rw [List.find?_eq_none] at hfind
    exact absurd hkey.symm (by simpa using hfind source (List.mem_reverse.mpr hsource))
  | some found =>
    have hmem := List.mem_reverse.mp (List.mem_of_find?_eq_some hfind)
    have hfound : found.key = item.key := by simpa using List.find?_some hfind
    rw [eq_of_key_eq hkeys hmem hsource (hfound.trans hkey)]
    rfl

theorem mem_unvoted {ratios : ScoreMap Binary32} {item : ScoredRow} :
    item ∈ filter.unvoted ranked ratios ↔
      ∃ source ∈ ranked, { source with score := filter.unvotedScore ratios source } = item := by
  rw [unvoted, List.mem_insertionSort, List.mem_map]

theorem unvoted_keys_nodup (hkeys : (ranked.map RankedCandidate.key).Nodup)
    (ratios : ScoreMap Binary32) :
    ((filter.unvoted ranked ratios).map RankedCandidate.key).Nodup := by
  have hperm := (List.perm_insertionSort RankedCandidate.NotAfter (ranked.map fun item =>
    { item with score := filter.unvotedScore ratios item })).map RankedCandidate.key
  rw [List.map_map] at hperm
  exact hperm.nodup_iff.mpr hkeys

/-- The rescued candidates are those of the list that the other pass alone has kept. -/
theorem rescueCandidates_eq (hsorted : ranked.Pairwise RankedCandidate.NotAfter)
    (hkeys : (ranked.map RankedCandidate.key).Nodup) {pass : List ScoredRow} (kept : List ScoredRow)
    (hpass : (pass.map RankedCandidate.key).Nodup)
    (hsource : ∀ item ∈ pass, item.isBackfill = false →
      ∃ source ∈ ranked, item.chunk = source.chunk ∧ item.sources = source.sources) :
    (rescueCandidates ranked pass kept).Sublist ranked ∧
      ∀ item, item ∈ rescueCandidates ranked pass kept ↔
        item ∈ ranked ∧ item.isBackfill = false ∧ item.key ∉ kept.map RankedCandidate.key ∧
          ∃ passed ∈ pass, passed.key = item.key ∧ passed.isBackfill = false := by
  let passed := pass.filter fun item =>
    !item.isBackfill && !(kept.map RankedCandidate.key).contains item.key
  let rescored := passed.map fun item => { item with score := votedScore ranked item }
  -- With its voted score, a candidate of the pass is that of the list.
  have hrescored : ∀ item ∈ passed, ∀ source ∈ ranked, item.key = source.key →
      { item with score := votedScore ranked item } = source := by
    intro item hitem source hmem hkey
    have hnot : item.isBackfill = false := by
      have hboth := List.of_mem_filter hitem
      simp only [Bool.and_eq_true, Bool.not_eq_true'] at hboth
      exact hboth.1
    obtain ⟨other, hother, hchunk, hsources⟩ :=
      hsource item (List.mem_of_mem_filter hitem) hnot
    have hsame : source = other :=
      eq_of_key_eq hkeys hmem hother (hkey.symm.trans (congrArg IndexedChunk.vectorKey hchunk))
    rw [votedScore_eq hkeys hmem hkey, hsame, hchunk, hsources]
  have hmemIff : ∀ item, item ∈ rescored ↔ item ∈ ranked ∧ item.isBackfill = false ∧
      item.key ∉ kept.map RankedCandidate.key ∧
        ∃ passed ∈ pass, passed.key = item.key ∧ passed.isBackfill = false := by
    intro item
    constructor
    · intro hitem
      obtain ⟨found, hfound, rfl⟩ := List.mem_map.mp hitem
      have hboth := List.of_mem_filter hfound
      simp only [Bool.and_eq_true, Bool.not_eq_true', List.contains_eq_mem,
        decide_eq_false_iff_not] at hboth
      obtain ⟨source, hmem, hchunk, hsources⟩ :=
        hsource found (List.mem_of_mem_filter hfound) hboth.1
      refine ⟨?_, hboth.1, hboth.2, found, List.mem_of_mem_filter hfound, rfl, hboth.1⟩
      rw [hrescored found hfound source hmem (congrArg IndexedChunk.vectorKey hchunk)]
      exact hmem
    · rintro ⟨hmem, hnot, hkept, found, hfound, hkey, hfoundNot⟩
      have hpassed : found ∈ passed := by
        refine List.mem_filter.mpr ⟨hfound, ?_⟩
        simp only [Bool.and_eq_true, Bool.not_eq_true', List.contains_eq_mem,
          decide_eq_false_iff_not]
        exact ⟨hfoundNot, by rwa [hkey]⟩
      rw [← hrescored found hpassed item hmem hkey]
      exact List.mem_map_of_mem hpassed
  have hnodup : rescored.Nodup := by
    have hkeysRescored : rescored.map RankedCandidate.key = passed.map RankedCandidate.key := by
      rw [List.map_map]
      rfl
    apply List.Nodup.of_map RankedCandidate.key
    rw [hkeysRescored]
    exact hpass.sublist (List.filter_sublist.map _)
  have hperm : rescored.Perm (ranked.filter (· ∈ rescored)) := by
    rw [List.perm_ext_iff_of_nodup hnodup (hkeys.of_map.filter _)]
    intro item
    simp only [List.mem_filter, decide_eq_true_eq]
    exact ⟨fun h => ⟨((hmemIff item).mp h).1, h⟩, fun h => h.2⟩
  have heq : rescueCandidates ranked pass kept = ranked.filter (· ∈ rescored) := by
    show rescored.insertionSort RankedCandidate.NotAfter = _
    rw [insertionSort_eq_of_perm (r := RankedCandidate.NotAfter) ?_ hperm,
      (hsorted.sublist List.filter_sublist).insertionSort_eq]
    intro left hleft right hright hle hge
    have horder : left.order = right.order := le_antisymm hle hge
    simp only [RankedCandidate.order, EmbeddingLike.apply_eq_iff_eq, Prod.mk.injEq] at horder
    exact eq_of_key_eq hkeys ((hmemIff left).mp hleft).1 ((hmemIff right).mp hright).1
      (UInt64.toNat_inj.mp horder.2)
  rw [heq]
  refine ⟨List.filter_sublist, fun item => ?_⟩
  rw [← hmemIff item, List.mem_filter, decide_eq_true_eq]
  exact ⟨fun h => h.2, fun h => ⟨((hmemIff item).mp h).1, h⟩⟩

end

/-! ## The list of both passes -/

section

variable {ranked : List ScoredRow}

/-- What the pass with the vote keeps. -/
def keptOf (ranked : List ScoredRow) (enableBackfill : Bool) : List ScoredRow :=
  (filter.filterMeaningfulScores ranked enableBackfill).filter fun item => !item.isBackfill

/-- The candidates of new files that the pass without the vote keeps. -/
def rescuedOf (ranked : List ScoredRow) (ratios : ScoreMap Binary32) (enableBackfill : Bool) :
    List ScoredRow :=
  retainFirst filter.fileOf ((filter.keptOf ranked enableBackfill).map filter.fileOf)
    (rescueCandidates ranked
      (filter.filterMeaningfulScores (filter.unvoted ranked ratios) enableBackfill)
      (filter.keptOf ranked enableBackfill))

/-- The parts before the backfill. -/
def frontOf (ranked : List ScoredRow) (ratios : ScoreMap Binary32) (enableBackfill : Bool) :
    List ScoredRow :=
  filter.keptOf ranked enableBackfill ++
    capScores id (nextScore id (filter.keptOf ranked enableBackfill))
      (filter.rescuedOf ranked ratios enableBackfill)

/-- The backfill of the pass with the vote that was not rescued. -/
def leftOver (ranked : List ScoredRow) (ratios : ScoreMap Binary32) (enableBackfill : Bool) :
    List ScoredRow :=
  ((filter.filterMeaningfulScores ranked enableBackfill).filter RankedCandidate.isBackfill).filter
    fun item => !((filter.frontOf ranked ratios enableBackfill).map RankedCandidate.key).contains
      item.key

theorem mergeVotes_eq (ratios : ScoreMap Binary32) (enableBackfill : Bool) :
    filter.mergeVotes ranked ratios enableBackfill =
      filter.frontOf ranked ratios enableBackfill ++
        capScores decay (nextScore decay (filter.frontOf ranked ratios enableBackfill))
          (filter.leftOver ranked ratios enableBackfill) := by
  unfold mergeVotes
  rw [List.partition_eq_filter_filter]
  rfl

theorem keptOf_sublist (ranked : List ScoredRow) (enableBackfill : Bool) :
    (filter.keptOf ranked enableBackfill).Sublist ranked := by
  obtain ⟨front, filled, hparts⟩ := filter.filterMeaningfulScores_parts ranked enableBackfill
  exact hparts.kept_sublist

/-- A rescued candidate is one of the list, of a file that no other one before the backfill has. -/
theorem rescuedOf_spec (hsorted : ranked.Pairwise RankedCandidate.NotAfter)
    (hkeys : (ranked.map RankedCandidate.key).Nodup) (ratios : ScoreMap Binary32)
    (enableBackfill : Bool) :
    (filter.rescuedOf ranked ratios enableBackfill).Sublist ranked ∧
      ((filter.rescuedOf ranked ratios enableBackfill).map filter.fileOf).Nodup ∧
      (∀ item ∈ filter.rescuedOf ranked ratios enableBackfill, item.isBackfill = false ∧
        item.key ∉ (filter.keptOf ranked enableBackfill).map RankedCandidate.key ∧
        filter.fileOf item ∉ (filter.keptOf ranked enableBackfill).map filter.fileOf ∧
        item.chunk ∈ (filter.filterMeaningfulScores (filter.unvoted ranked ratios)
          enableBackfill).map RankedCandidate.chunk) ∧
      ∀ item ∈ filter.filterMeaningfulScores (filter.unvoted ranked ratios) enableBackfill,
        item.isBackfill = false → ∃ other ∈ filter.keptOf ranked enableBackfill ++
          filter.rescuedOf ranked ratios enableBackfill, filter.fileOf other = filter.fileOf item := by
  obtain ⟨front, filled, hparts⟩ :=
    filter.filterMeaningfulScores_parts (filter.unvoted ranked ratios) enableBackfill
  -- A candidate of the other pass is one of the list, but for its score.
  have hsource : ∀ item ∈ filter.filterMeaningfulScores (filter.unvoted ranked ratios)
      enableBackfill, item.isBackfill = false →
        ∃ source ∈ ranked, item.chunk = source.chunk ∧ item.sources = source.sources := by
    intro item hitem hnot
    obtain ⟨other, hother, -, heq⟩ := hparts.exists_source item hitem
    obtain ⟨source, hmem, rfl⟩ := filter.mem_unvoted.mp hother
    rw [heq hnot]
    exact ⟨source, hmem, rfl, rfl⟩
  have hpassKeys := hparts.keys_nodup (filter.unvoted_keys_nodup hkeys ratios)
  obtain ⟨hsublist, hmem⟩ := rescueCandidates_eq hsorted hkeys
    (filter.keptOf ranked enableBackfill) hpassKeys hsource
  unfold rescuedOf
  generalize filter.filterMeaningfulScores (filter.unvoted ranked ratios) enableBackfill = pass
    at hmem hsource hsublist hpassKeys
  rw [retainFirst_eq]
  refine ⟨(List.filter_sublist.trans (keepFirst_sublist _ _)).trans hsublist,
    (keepFirst_nodup _).sublist (List.filter_sublist.map _), fun item hitem => ?_,
    fun item hitem hnot => ?_⟩
  · obtain ⟨hfirst, hfile⟩ := List.mem_filter.mp hitem
    obtain ⟨hranked, hnot, hkept, passed, hpassed, hkey, hpassedNot⟩ :=
      (hmem item).mp ((keepFirst_sublist _ _).subset hfirst)
    refine ⟨hnot, hkept, by simpa using hfile, ?_⟩
    obtain ⟨source, hsourceMem, hchunk, -⟩ := hsource passed hpassed hpassedNot
    have hsame : item = source := eq_of_key_eq hkeys hranked hsourceMem
      (hkey.symm.trans (congrArg IndexedChunk.vectorKey hchunk))
    rw [hsame, ← hchunk]
    exact List.mem_map_of_mem hpassed
  · by_cases hkept : item.key ∈ (filter.keptOf ranked enableBackfill).map RankedCandidate.key
    · -- The pass with the vote kept the candidate itself.
      obtain ⟨other, hother, hkey⟩ := List.mem_map.mp hkept
      obtain ⟨source, hsourceMem, hchunk, -⟩ := hsource item hitem hnot
      have hsame : other = source := eq_of_key_eq hkeys ((filter.keptOf_sublist ranked _).subset hother)
        hsourceMem (hkey.trans (congrArg IndexedChunk.vectorKey hchunk))
      refine ⟨other, List.mem_append_left _ hother, ?_⟩
      rw [fileOf, fileOf, hsame, hchunk]
    · obtain ⟨source, hsourceMem, hchunk, hsources⟩ := hsource item hitem hnot
      have hfile : filter.fileOf source = filter.fileOf item := by rw [fileOf, fileOf, hchunk]
      have hrescue : source ∈ rescueCandidates ranked pass (filter.keptOf ranked enableBackfill) := by
        have hkey : item.key = source.key := congrArg IndexedChunk.vectorKey hchunk
        refine (hmem source).mpr ⟨hsourceMem, ?_, by rwa [← hkey], item, hitem, hkey, hnot⟩
        rw [RankedCandidate.isBackfill, ← hsources]
        exact hnot
      by_cases hseen : filter.fileOf source ∈
          (filter.keptOf ranked enableBackfill).map filter.fileOf
      · obtain ⟨other, hother, hsame⟩ := List.mem_map.mp hseen
        exact ⟨other, List.mem_append_left _ hother, hsame.trans hfile⟩
      · have hfirst : filter.fileOf source ∈ (keepFirst filter.fileOf
            (rescueCandidates ranked pass (filter.keptOf ranked enableBackfill))).map
              filter.fileOf := mem_map_keepFirst.mpr (List.mem_map_of_mem hrescue)
        obtain ⟨other, hother, hsame⟩ := List.mem_map.mp hfirst
        refine ⟨other, List.mem_append_right _ (List.mem_filter.mpr ⟨hother, ?_⟩),
          hsame.trans hfile⟩
        rw [hsame]
        simpa using hseen

theorem frontOf_not_backfill (hsorted : ranked.Pairwise RankedCandidate.NotAfter)
    (hkeys : (ranked.map RankedCandidate.key).Nodup) (ratios : ScoreMap Binary32)
    (enableBackfill : Bool) :
    ∀ item ∈ filter.frontOf ranked ratios enableBackfill, item.isBackfill = false := by
  obtain ⟨-, -, hrescued, -⟩ := filter.rescuedOf_spec hsorted hkeys ratios enableBackfill
  unfold frontOf
  rw [List.forall_mem_append]
  constructor
  · intro item hitem
    simpa using List.of_mem_filter hitem
  · intro item hitem
    obtain ⟨source, hsource, -, hsources⟩ := (capScores_same _ _ _).exists_of_mem hitem
    rw [RankedCandidate.isBackfill, hsources]
    exact (hrescued source hsource).1

/-- The scores before the backfill: they do not increase, and each is that of a candidate. -/
theorem frontOf_scores (hsorted : ranked.Pairwise RankedCandidate.NotAfter)
    (hkeys : (ranked.map RankedCandidate.key).Nodup)
    (hnonNeg : ∀ item ∈ ranked, item.score.NonNeg) (ratios : ScoreMap Binary32)
    (enableBackfill : Bool) :
    (filter.frontOf ranked ratios enableBackfill).Pairwise
        (fun left right => right.score ≤ left.score) ∧
      ∀ P : Binary32 → Prop, P Binary32.maxFinite → (∀ item ∈ ranked, P item.score) →
        ∀ item ∈ filter.frontOf ranked ratios enableBackfill, P item.score := by
  obtain ⟨hrescued, -, -, -⟩ := filter.rescuedOf_spec hsorted hkeys ratios enableBackfill
  have hkept := filter.keptOf_sublist ranked enableBackfill
  have hdescending : (filter.keptOf ranked enableBackfill).Pairwise
      fun left right => right.score ≤ left.score := by
    refine (hsorted.sublist hkept).imp fun {left right} hle => ?_
    rcases Prod.Lex.toLex_le_toLex.mp hle with hlt | ⟨heq, -⟩
    · exact (OrderDual.toDual_lt_toDual.mp hlt).le
    · exact (OrderDual.toDual_inj.mp heq).ge
  have hscores : ∀ P : Binary32 → Prop, P Binary32.maxFinite → (∀ item ∈ ranked, P item.score) →
      P (nextScore id (filter.keptOf ranked enableBackfill)) := fun P hmax hall =>
    nextScore_forall id (fun item hitem => hall item (hkept.subset hitem)) hmax
  obtain ⟨hcapSorted, hcapped⟩ := capScores_sorted id (fun _ h => ⟨h, le_refl _⟩)
    (hscores Binary32.NonNeg maxFinite_nonNeg hnonNeg)
    (fun item hitem => hnonNeg item (hrescued.subset hitem))
  unfold frontOf
  constructor
  · refine List.pairwise_append.mpr ⟨hdescending, hcapSorted, fun left hleft right hright => ?_⟩
    obtain ⟨last, -, hnext, hle⟩ := nextScore_of_sorted id hdescending hleft
    have hcap := hcapped right hright
    rw [hnext] at hcap
    exact hcap.trans hle
  · intro P hmax hall
    rw [List.forall_mem_append]
    exact ⟨fun item hitem => hall item (hkept.subset hitem),
      capScores_forall (hscores P hmax hall) fun item hitem => hall item (hrescued.subset hitem)⟩

theorem frontOf_chunk (hsorted : ranked.Pairwise RankedCandidate.NotAfter)
    (hkeys : (ranked.map RankedCandidate.key).Nodup) (ratios : ScoreMap Binary32)
    (enableBackfill : Bool) {item : ScoredRow}
    (hitem : item ∈ filter.frontOf ranked ratios enableBackfill) :
    ∃ source ∈ ranked, item.chunk = source.chunk := by
  obtain ⟨hrescued, -, -, -⟩ := filter.rescuedOf_spec hsorted hkeys ratios enableBackfill
  rcases List.mem_append.mp hitem with hitem | hitem
  · exact ⟨item, (filter.keptOf_sublist ranked enableBackfill).subset hitem, rfl⟩
  · obtain ⟨source, hsource, hchunk, -⟩ := (capScores_same _ _ _).exists_of_mem hitem
    exact ⟨source, hrescued.subset hsource, hchunk⟩

theorem mergeVotes_keys (hsorted : ranked.Pairwise RankedCandidate.NotAfter)
    (hkeys : (ranked.map RankedCandidate.key).Nodup) (ratios : ScoreMap Binary32)
    (enableBackfill : Bool) :
    ((filter.mergeVotes ranked ratios enableBackfill).map RankedCandidate.key).Nodup := by
  obtain ⟨hrescued, -, hnew, -⟩ := filter.rescuedOf_spec hsorted hkeys ratios enableBackfill
  obtain ⟨front, filled, hparts⟩ := filter.filterMeaningfulScores_parts ranked enableBackfill
  have hcap : ∀ step next items, (capScores step next items).map RankedCandidate.key =
      items.map RankedCandidate.key := fun step next items =>
    (capScores_same step next items).map_eq fun a b h _ => congrArg IndexedChunk.vectorKey h
  have hfront : ((filter.frontOf ranked ratios enableBackfill).map RankedCandidate.key).Nodup := by
    rw [frontOf, List.map_append, hcap, List.nodup_append']
    refine ⟨hkeys.sublist ((filter.keptOf_sublist ranked enableBackfill).map _),
      hkeys.sublist (hrescued.map _), fun key hkept hother => ?_⟩
    obtain ⟨item, hitem, rfl⟩ := List.mem_map.mp hother
    exact (hnew item hitem).2.1 hkept
  rw [mergeVotes_eq, List.map_append, hcap, List.nodup_append']
  refine ⟨hfront, (hparts.keys_nodup hkeys).sublist
    ((List.filter_sublist.trans List.filter_sublist).map _), fun key hmem hother => ?_⟩
  obtain ⟨item, hitem, rfl⟩ := List.mem_map.mp hother
  have hnot := List.of_mem_filter hitem
  simp only [Bool.not_eq_true', List.contains_eq_mem, decide_eq_false_iff_not] at hnot
  exact hnot hmem

/-- No chunk of the pass with the vote is lost. -/
theorem mem_mergeVotes_of_voted (hsorted : ranked.Pairwise RankedCandidate.NotAfter)
    (hkeys : (ranked.map RankedCandidate.key).Nodup) (ratios : ScoreMap Binary32)
    {enableBackfill : Bool} {item : ScoredRow}
    (hitem : item ∈ filter.filterMeaningfulScores ranked enableBackfill) :
    item.chunk ∈ (filter.mergeVotes ranked ratios enableBackfill).map RankedCandidate.chunk := by
  rw [mergeVotes_eq, List.map_append, List.mem_append]
  obtain ⟨front, filled, hparts⟩ := filter.filterMeaningfulScores_parts ranked enableBackfill
  by_cases hmark : item.isBackfill
  · by_cases hkey : item.key ∈
        (filter.frontOf ranked ratios enableBackfill).map RankedCandidate.key
    · obtain ⟨other, hother, hsame⟩ := List.mem_map.mp hkey
      obtain ⟨source, hsource, hchunk, -⟩ := hparts.exists_source item hitem
      obtain ⟨source', hsource', hchunk'⟩ :=
        filter.frontOf_chunk hsorted hkeys ratios enableBackfill hother
      have heq : source = source' := by
        apply eq_of_key_eq hkeys hsource hsource'
        rw [RankedCandidate.key, RankedCandidate.key, ← hchunk, ← hchunk']
        exact hsame.symm
      left
      rw [hchunk, heq, ← hchunk']
      exact List.mem_map_of_mem hother
    · right
      rw [(capScores_same _ _ _).map_eq fun a b hchunk _ => hchunk]
      apply List.mem_map_of_mem
      refine List.mem_filter.mpr ⟨List.mem_filter.mpr ⟨hitem, hmark⟩, ?_⟩
      simpa using hkey
  · left
    apply List.mem_map_of_mem
    exact List.mem_append_left _ (List.mem_filter.mpr ⟨hitem, by simpa using hmark⟩)

/-- The scores of the list do not increase. Where `0.99` lowers all scores of the candidates, those
    of the backfill are below those before it. -/
theorem mergeVotes_scores (hsorted : ranked.Pairwise RankedCandidate.NotAfter)
    (hkeys : (ranked.map RankedCandidate.key).Nodup)
    (hnonNeg : ∀ item ∈ ranked, item.score.NonNeg) (ratios : ScoreMap Binary32)
    (enableBackfill : Bool) :
    (filter.mergeVotes ranked ratios enableBackfill).Pairwise
        (fun left right => right.score ≤ left.score) ∧
      ((∀ item ∈ ranked, IsLowered item.score) →
        ∀ item ∈ filter.frontOf ranked ratios enableBackfill,
          ∀ filled ∈ capScores decay
              (nextScore decay (filter.frontOf ranked ratios enableBackfill))
              (filter.leftOver ranked ratios enableBackfill), filled.score < item.score) := by
  obtain ⟨hdescending, hscores⟩ :=
    filter.frontOf_scores hsorted hkeys hnonNeg ratios enableBackfill
  obtain ⟨front, filled, hparts⟩ := filter.filterMeaningfulScores_parts ranked enableBackfill
  have hfrontNonNeg := hscores Binary32.NonNeg maxFinite_nonNeg hnonNeg
  have hleft : ∀ item ∈ filter.leftOver ranked ratios enableBackfill, item.score.NonNeg :=
    fun item hitem => hparts.scores_nonNeg hnonNeg item
      (List.mem_of_mem_filter (List.mem_of_mem_filter hitem))
  obtain ⟨hcapSorted, hcapped⟩ := capScores_sorted decay
    (fun score h => ⟨decay_nonNeg h, decay_le h⟩)
    (nextScore_forall decay (fun item hitem => decay_nonNeg (hfrontNonNeg item hitem))
      maxFinite_nonNeg) hleft
  rw [mergeVotes_eq]
  constructor
  · refine List.pairwise_append.mpr ⟨hdescending, hcapSorted, fun item hitem filled hfilled => ?_⟩
    obtain ⟨last, hlast, hnext, hle⟩ := nextScore_of_sorted decay hdescending hitem
    have hcap := hcapped filled hfilled
    rw [hnext] at hcap
    exact (hcap.trans (decay_le (hfrontNonNeg last hlast))).trans hle
  · intro hlowered item hitem filled hfilled
    obtain ⟨last, hlast, hnext, hle⟩ := nextScore_of_sorted decay hdescending hitem
    have hcap := hcapped filled hfilled
    rw [hnext] at hcap
    have hlower := hscores IsLowered maxFinite_isLowered hlowered last hlast
    exact (hcap.trans_lt (decay_lt hlower)).trans_le hle

end

end ScoreFilter

/-! ## The hits -/

namespace HitPresentation

variable {presentation : HitPresentation}

theorem isBackfilled_prepareHit (item : ScoredRow) :
    isBackfilled (presentation.prepareHit item) = item.isBackfill := by
  rw [Bool.eq_iff_iff]
  unfold isBackfilled prepareHit RankedCandidate.isBackfill
  rw [List.contains_iff_mem]
  simp only [sourceList, List.mem_map, List.mem_filter]
  constructor
  · rintro ⟨⟨source, bit⟩, ⟨hmem, hbit⟩, hname⟩
    have hlast : bit = 9 := by
      simp only [List.mem_cons, Prod.mk.injEq, List.not_mem_nil, or_false] at hmem
      rcases hmem with ⟨rfl, rfl⟩ | ⟨rfl, rfl⟩ | ⟨rfl, rfl⟩ | ⟨rfl, rfl⟩ | ⟨rfl, rfl⟩ |
        ⟨rfl, rfl⟩ | ⟨rfl, rfl⟩ | ⟨rfl, rfl⟩ | ⟨rfl, rfl⟩ | ⟨rfl, rfl⟩
      all_goals first | rfl | exact absurd hname (by decide +kernel)
    rw [hlast] at hbit
    exact hbit
  · intro hmark
    exact ⟨("backfill", 9), ⟨by simp, hmark⟩, rfl⟩

/-- Where the backfill stands behind all others, the first of it is where the others end. -/
theorem acceptedLen_spec {hits : List (SearchHit Str)}
    (h : hits.Pairwise fun left right => isBackfilled left → isBackfilled right) :
    (∀ hit ∈ hits.take (acceptedLen hits), isBackfilled hit = false) ∧
      ∀ hit ∈ hits.drop (acceptedLen hits), isBackfilled hit = true := by
  unfold acceptedLen
  induction hits with
  | nil => simp
  | cons hit hits ih =>
    obtain ⟨hfirst, hrest⟩ := List.pairwise_cons.mp h
    rw [List.findIdx_cons]
    cases hmark : isBackfilled hit with
    | true =>
      rw [cond_true, List.take_zero, List.drop_zero]
      refine ⟨nofun, fun later hlater => ?_⟩
      rcases List.mem_cons.mp hlater with rfl | hmem
      · exact hmark
      · exact hfirst later hmem hmark
    | false =>
      rw [cond_false, List.take_succ_cons, List.drop_succ_cons, List.forall_mem_cons]
      exact ⟨⟨hmark, (ih hrest).1⟩, (ih hrest).2⟩

/-- The sort keeps the backfill behind the others where it has lower scores. -/
theorem sortedHits_separated {merged : List ScoredRow} (files : List Str)
    (hlower : ∀ item ∈ merged, item.isBackfill = false → ∀ filled ∈ merged, filled.isBackfill →
      filled.score < item.score) :
    (presentation.sortedHits merged files).Pairwise fun left right =>
      isBackfilled left → isBackfilled right := by
  have htrans : IsTrans (SearchHit Str) HitNotAfter := ⟨fun _ _ _ => le_trans⟩
  have htotal : Std.Total HitNotAfter := ⟨fun _ _ => le_total _ _⟩
  have hprepared : ∀ hit ∈ presentation.sortedHits merged files,
      ∃ item ∈ merged, presentation.prepareHit item = hit := by
    intro hit hhit
    rw [sortedHits, List.mem_insertionSort] at hhit
    obtain ⟨path, -, hmem⟩ := List.mem_flatMap.mp hhit
    obtain ⟨item, hitem, heq⟩ := List.mem_map.mp hmem
    exact ⟨item, List.mem_of_mem_filter hitem, heq⟩
  refine (List.pairwise_insertionSort HitNotAfter _).imp_of_mem ?_
  intro left right hleft hright hle hmark
  obtain ⟨filled, hfilled, rfl⟩ := hprepared left hleft
  obtain ⟨item, hitem, rfl⟩ := hprepared right hright
  rw [isBackfilled_prepareHit] at hmark ⊢
  by_contra hnot
  rw [Bool.not_eq_true] at hnot
  have hscore := hlower item hitem hnot filled hfilled hmark
  rcases Prod.Lex.toLex_le_toLex.mp hle with hlt | ⟨heq, -⟩
  · exact absurd (OrderDual.toDual_lt_toDual.mp hlt) hscore.not_gt
  · exact absurd (OrderDual.toDual_inj.mp heq) hscore.ne

end HitPresentation

theorem mem_of_mem_truncateTo {limit : Option Nat} {merged : List ScoredRow} {item : ScoredRow}
    (h : item ∈ truncateTo limit merged) : item ∈ merged := by
  cases limit with
  | none => exact h
  | some limit => exact List.mem_of_mem_take h

/-- The list of both passes has all chunks of the voted one and a chunk of each file that the other
    one keeps, in three parts with scores that do not increase. Where `0.99` lowers every score, the
    search cuts between the backfill and the others. -/
theorem mergeVotes_keeps (filter : ScoreFilter) (ratios : ScoreMap Binary32) (enableBackfill : Bool)
    {ranked : List ScoredRow} (hsorted : ranked.Pairwise RankedCandidate.NotAfter)
    (hkeys : (ranked.map RankedCandidate.key).Nodup)
    (hnonNeg : ∀ item ∈ ranked, item.score.NonNeg) :
    let voted := filter.filterMeaningfulScores ranked enableBackfill
    let unvotedPass := filter.filterMeaningfulScores (filter.unvoted ranked ratios) enableBackfill
    let merged := filter.mergeVotes ranked ratios enableBackfill
    (∀ item ∈ voted, item.chunk ∈ merged.map RankedCandidate.chunk) ∧
    (∀ item ∈ unvotedPass, item.isBackfill = false →
      ∃ other ∈ merged, filter.fileOf other = filter.fileOf item) ∧
    (merged.map RankedCandidate.chunk).Nodup ∧
    (∃ rescued backfilled,
      merged = voted.filter (fun item => !item.isBackfill) ++ rescued ++ backfilled ∧
      (∀ item ∈ rescued, item.isBackfill = false ∧
        item.chunk ∈ unvotedPass.map RankedCandidate.chunk ∧
        ∀ other ∈ voted, other.isBackfill = false → filter.fileOf other ≠ filter.fileOf item) ∧
      (rescued.map filter.fileOf).Nodup ∧
      (rescued.map RankedCandidate.chunk).Sublist (ranked.map RankedCandidate.chunk) ∧
      ∀ item ∈ backfilled, item.isBackfill = true) ∧
    merged.Pairwise (fun left right => right.score ≤ left.score) ∧
    ((∀ item ∈ ranked, IsLowered item.score) →
      ∀ (limit : Option Nat) (presentation : HitPresentation) (files : List Str),
        let hits := presentation.sortedHits (truncateTo limit merged) files
        (∀ hit ∈ hits.take (HitPresentation.acceptedLen hits),
          HitPresentation.isBackfilled hit = false) ∧
        ∀ hit ∈ hits.drop (HitPresentation.acceptedLen hits),
          HitPresentation.isBackfilled hit = true) := by
  obtain ⟨hrescued, hfiles, hnew, hreached⟩ :=
    filter.rescuedOf_spec hsorted hkeys ratios enableBackfill
  obtain ⟨hscores, hcut⟩ :=
    filter.mergeVotes_scores hsorted hkeys hnonNeg ratios enableBackfill
  have hfront := filter.frontOf_not_backfill hsorted hkeys ratios enableBackfill
  have hcapChunk : ∀ step next items,
      (ScoreFilter.capScores step next items).map RankedCandidate.chunk =
        items.map RankedCandidate.chunk := fun step next items =>
    (ScoreFilter.capScores_same step next items).map_eq fun a b h _ => h
  have hfilled : ∀ step next, ∀ item ∈ ScoreFilter.capScores step next
      (filter.leftOver ranked ratios enableBackfill), item.isBackfill = true := by
    intro step next item hitem
    obtain ⟨source, hsource, -, hsources⟩ :=
      (ScoreFilter.capScores_same _ _ _).exists_of_mem hitem
    have hmark := (List.mem_filter.mp (List.mem_of_mem_filter hsource)).2
    rw [RankedCandidate.isBackfill, hsources]
    exact hmark
  refine ⟨fun item hitem => filter.mem_mergeVotes_of_voted hsorted hkeys ratios hitem,
    fun item hitem hnot => ?_, ?_, ?_, hscores, fun hlowered limit presentation files => ?_⟩
  · obtain ⟨other, hother, hsame⟩ := hreached item hitem hnot
    -- The file has a candidate before the backfill, perhaps with its score capped.
    have hchunk : other.chunk ∈
        (filter.frontOf ranked ratios enableBackfill).map RankedCandidate.chunk := by
      rw [ScoreFilter.frontOf, List.map_append, hcapChunk, ← List.map_append]
      exact List.mem_map_of_mem hother
    obtain ⟨found, hfound, heq⟩ := List.mem_map.mp hchunk
    refine ⟨found, ?_, ?_⟩
    · rw [ScoreFilter.mergeVotes_eq]
      exact List.mem_append_left _ hfound
    · rw [← hsame, ScoreFilter.fileOf, ScoreFilter.fileOf, heq]
  · have hnodup := filter.mergeVotes_keys hsorted hkeys ratios enableBackfill
    apply List.Nodup.of_map IndexedChunk.vectorKey
    rw [List.map_map]
    exact hnodup
  · refine ⟨_, _, filter.mergeVotes_eq ratios enableBackfill, fun item hitem => ?_, ?_, ?_,
      hfilled _ _⟩
    · obtain ⟨source, hsource, hchunk, -⟩ :=
        (ScoreFilter.capScores_same _ _ _).exists_of_mem hitem
      obtain ⟨-, -, hfile, hpassed⟩ := hnew source hsource
      refine ⟨hfront item (List.mem_append_right _ hitem), by rwa [hchunk],
        fun other hother hnot hsame => hfile ?_⟩
      rw [ScoreFilter.fileOf, ← hchunk]
      rw [ScoreFilter.fileOf, ScoreFilter.fileOf] at hsame
      rw [← hsame]
      exact List.mem_map_of_mem (List.mem_filter.mpr ⟨hother, by simpa using hnot⟩)
    · rw [(ScoreFilter.capScores_same _ _ _).map_eq fun a b h _ => by
        rw [ScoreFilter.fileOf, ScoreFilter.fileOf, h]]
      exact hfiles
    · rw [hcapChunk]
      exact hrescued.map _
  · apply HitPresentation.acceptedLen_spec
    apply HitPresentation.sortedHits_separated
    intro item hitem hnot filled hmem hmark
    have hitem := mem_of_mem_truncateTo hitem
    have hmem := mem_of_mem_truncateTo hmem
    rw [ScoreFilter.mergeVotes_eq, List.mem_append] at hitem hmem
    rcases hitem with hitem | hitem
    · rcases hmem with hmem | hmem
      · rw [hfront filled hmem] at hmark
        cases hmark
      · exact hcut hlowered item hitem filled hmem
    · rw [hfilled _ _ item hitem] at hnot
      cases hnot

/-! ## Scores that are too small -/

def sampleCandidate (filePath : Str) (vectorKey : UInt64) (sources : SourceMask) : ScoredRow where
  chunk := {
    filePath := filePath
    startLine := 1
    endLine := 1
    language := "rust".toList
    kind := "Function".toList
    text := "fn f() {}".toList
    vectorKey := vectorKey
    isIgnored := false }
  score := ⟨1⟩
  sources := sources

/-- A query that `b.rs` matches by its path, with the least threshold, `0.010`. -/
def sampleFilter : ScoreFilter where
  pathKey path := if path = "b.rs".toList then 2 else 1
  preciseQuery := false
  hasEnoughAuthority _ _ := true
  isStrongPath chunk := chunk.filePath = "b.rs".toList
  adaptiveThreshold _ := ⟨0x3c23d70a⟩
  literalThreshold _ := ⟨0x3be56042⟩
  acceptsSemantic _ := false
  supportsSemantic _ _ := false
  timesRatio score _ := score

/-- Two candidates with the least positive score. -/
def sampleRanked : List ScoredRow :=
  [sampleCandidate "b.rs".toList 1 sourcePath, sampleCandidate "a.rs".toList 2 sourceLexical]

/-- The second one has the ratio `1.0`. -/
def sampleRatios : ScoreMap Binary32 := (∅ : ScoreMap Binary32).insert 2 ⟨0x3f800000⟩

def samplePresentation : HitPresentation where
  lines _ := (1, 1)
  preview item := item.chunk.text
  reason _ := []
  neuralRequested := false
  neuralExecuted := false
  isNotFound _ := false

/-- `0.99` does not lower the score, and the sort puts the backfill first by its path. -/
theorem subnormal_backfill_precedes :
    (sampleRanked.Pairwise RankedCandidate.NotAfter ∧
        (sampleRanked.map RankedCandidate.key).Nodup) ∧
      (samplePresentation.sortedHits (sampleFilter.mergeVotes sampleRanked sampleRatios true)
          ["b.rs".toList, "a.rs".toList]).map
        (fun hit => (hit.filePath, HitPresentation.isBackfilled hit)) =
      [("a.rs".toList, true), ("b.rs".toList, false)] := by
  constructor
  · constructor <;> decide +kernel
  · decide +kernel

theorem mergeVotes_keeps_sample :
    (∀ item ∈ sampleFilter.filterMeaningfulScores sampleRanked true,
      item.chunk ∈ (sampleFilter.mergeVotes sampleRanked sampleRatios true).map
        RankedCandidate.chunk) ∧
      (sampleFilter.mergeVotes sampleRanked sampleRatios true).Pairwise
        fun left right => right.score ≤ left.score := by
  have hnonNeg : ∀ item ∈ sampleRanked, item.score.NonNeg := by
    unfold Binary32.NonNeg
    decide +kernel
  obtain ⟨hvoted, -, -, -, hscores, -⟩ := mergeVotes_keeps sampleFilter sampleRatios true
    (by decide +kernel) (by decide +kernel) hnonNeg
  exact ⟨hvoted, hscores⟩

end Ivygrep.Native
