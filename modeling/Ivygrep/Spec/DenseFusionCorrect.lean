import Ivygrep.ForStd.Quota
import Ivygrep.Native.DenseFusion
import Mathlib.Tactic.Linarith
import Mathlib.Tactic.NormNum

/-!
# Late dense fusion redistributes scores

The eligible files exchange their positions. A file takes over the best score of its new position
and the ratio there, and its chunks are scaled alike.

## Key results

- `fileEntries_eq`: the entries of the files
- `rescore_eq`: what happens to a candidate
- `filter_fused`: the chunks of one file
- `fuseDenseFileOrder_redistributes`: what the fusion keeps
-/

namespace Ivygrep.Native.DenseFusion

open ForStd

/-! ## The entries of the files -/

section

variable {𝕜 : Type} [Field 𝕜] [LinearOrder 𝕜] (fusion : DenseFusion 𝕜) (ratios : ScoreMap 𝕜)

/-- The entry of a file after some of its chunks. -/
def entryAfter (head : RankedCandidate 𝕜) (chunks : List (RankedCandidate 𝕜)) : FileEntry 𝕜 :=
  chunks.foldl (fun entry item => fusion.addToEntry item entry)
    ⟨fusion.fileOf head, head.score, unvotedRatio ratios head.chunk.vectorKey, false, none⟩

theorem entryAfter_concat (head item : RankedCandidate 𝕜) (chunks : List (RankedCandidate 𝕜)) :
    fusion.entryAfter ratios head (chunks ++ [item]) =
      fusion.addToEntry item (fusion.entryAfter ratios head chunks) := by
  rw [entryAfter, List.foldl_append]
  rfl

/-- The entry that a file has in the end. -/
def entryOf (ranked : List (RankedCandidate 𝕜)) (head : RankedCandidate 𝕜) : FileEntry 𝕜 :=
  fusion.entryAfter ratios head (ranked.filter fun item => fusion.fileOf item = fusion.fileOf head)

theorem entryAfter_spec (head : RankedCandidate 𝕜) (chunks : List (RankedCandidate 𝕜)) :
    let entry := fusion.entryAfter ratios head chunks
    entry.file = fusion.fileOf head ∧ entry.score = head.score ∧
      entry.unvotedRatio = unvotedRatio ratios head.chunk.vectorKey ∧
      entry.eligible = chunks.any fusion.isEligible := by
  induction chunks using List.reverseRecOn with
  | nil => exact ⟨rfl, rfl, rfl, rfl⟩
  | append_singleton chunks item ih =>
    rw [entryAfter_concat]
    obtain ⟨hfile, hscore, hratio, heligible⟩ := ih
    refine ⟨hfile, hscore, hratio, ?_⟩
    rw [List.any_append, ← heligible]
    simp [addToEntry]

theorem entryOf_file (ranked : List (RankedCandidate 𝕜)) (head : RankedCandidate 𝕜) :
    (fusion.entryOf ratios ranked head).file = fusion.fileOf head :=
  (fusion.entryAfter_spec ratios head _).1

theorem entryOf_concat (ranked : List (RankedCandidate 𝕜)) (item head : RankedCandidate 𝕜) :
    fusion.entryOf ratios (ranked ++ [item]) head =
      if fusion.fileOf head = fusion.fileOf item then
        fusion.addToEntry item (fusion.entryOf ratios ranked head)
      else fusion.entryOf ratios ranked head := by
  unfold entryOf
  rw [List.filter_append]
  split
  · next hfile =>
    have hitem : [item].filter (fun item => fusion.fileOf item = fusion.fileOf head) = [item] := by
      simp [hfile]
    rw [hitem, entryAfter_concat]
  · next hfile =>
    have hitem : [item].filter (fun item => fusion.fileOf item = fusion.fileOf head) = [] := by
      simp [Ne.symm hfile]
    rw [hitem, List.append_nil]

/-- A file holds the position of its first chunk. -/
theorem fileEntries_eq (ranked : List (RankedCandidate 𝕜)) :
    fusion.fileEntries ratios ranked =
      (keepFirst fusion.fileOf ranked).map (fusion.entryOf ratios ranked) := by
  induction ranked using List.reverseRecOn with
  | nil => rfl
  | append_singleton ranked item ih =>
    have hfold : fusion.fileEntries ratios (ranked ++ [item]) =
        fusion.addChunk ratios (fusion.fileEntries ratios ranked) item := by
      rw [fileEntries, List.foldl_append]
      rfl
    -- The entries once the file of the chunk has one.
    have hinserted : (if (fusion.fileEntries ratios ranked).any fun entry =>
          entry.file == fusion.fileOf item then fusion.fileEntries ratios ranked
        else fusion.fileEntries ratios ranked ++
          [⟨fusion.fileOf item, item.score, unvotedRatio ratios item.chunk.vectorKey, false,
            none⟩]) =
        (keepFirst fusion.fileOf (ranked ++ [item])).map (fusion.entryOf ratios ranked) := by
      have hany : ((fusion.fileEntries ratios ranked).any fun entry =>
          entry.file == fusion.fileOf item) ↔ fusion.fileOf item ∈ ranked.map fusion.fileOf := by
        rw [ih, ← mem_map_keepFirst, List.any_map, List.any_eq_true, List.mem_map]
        simp [entryOf_file]
      rw [keepFirst_append, List.map_append, ← ih]
      by_cases hmem : fusion.fileOf item ∈ ranked.map fusion.fileOf
      · rw [if_pos (hany.mpr hmem), retainFirst, if_pos (mem_map_keepFirst.mpr hmem), retainFirst,
          List.map_nil, List.append_nil]
      · have hnone :
            ranked.filter (fun other => fusion.fileOf other = fusion.fileOf item) = [] := by
          rw [List.filter_eq_nil_iff]
          intro other hother
          simpa using fun heq => hmem (List.mem_map.mpr ⟨other, hother, heq⟩)
        rw [if_neg fun h => hmem (hany.mp h), retainFirst,
          if_neg fun h => hmem (mem_map_keepFirst.mp h), retainFirst, List.map_singleton, entryOf,
          hnone]
        rfl
    rw [hfold, addChunk, hinserted, List.map_map]
    refine List.map_congr_left fun head _ => ?_
    rw [Function.comp_apply, entryOf_concat, entryOf_file]

end

/-! ## The fused order -/

section

variable {𝕜 : Type} (fusion : DenseFusion 𝕜) (files : List (FileEntry 𝕜))

theorem mem_slots {position : Fin files.length} :
    position ∈ slots files ↔ (files.get position).eligible := by
  simp [slots]

theorem slots_sorted : (slots files).Pairwise (· < ·) :=
  (List.pairwise_lt_finRange files.length).filter _

theorem slots_nodup : (slots files).Nodup := (slots_sorted files).imp fun h => ne_of_lt h

theorem getElem?_of_idxOf? {l : List (Fin files.length)} {position : Fin files.length} {i : Nat}
    (h : l.idxOf? position = some i) : l[i]? = some position := by
  obtain ⟨hi, heq, -⟩ := List.idxOf?_eq_some_iff.mp h
  rw [List.getElem?_eq_getElem hi, heq]

variable {files} in
theorem file_injective (hnodup : (files.map FileEntry.file).Nodup) :
    Function.Injective fun position : Fin files.length => (files.get position).file := by
  have hdistinct := List.pairwise_iff_getElem.mp (List.pairwise_map.mp hnodup)
  intro p q heq
  rcases lt_trichotomy p q with hlt | rfl | hlt
  · exact absurd heq (hdistinct p q p.isLt q.isLt hlt)
  · rfl
  · exact absurd heq.symm (hdistinct q p q.isLt p.isLt hlt)

/-- The position of the pinned file. -/
def pinnedPosition : Option (Fin files.length) :=
  fusion.pinnedFile.bind fun file =>
    (List.finRange files.length).find? fun position => (files.get position).file = file

theorem pinnedPosition_eq (hnodup : (files.map FileEntry.file).Nodup)
    {position : Fin files.length} :
    fusion.pinnedPosition files = some position ↔
      fusion.pinnedFile = some (files.get position).file := by
  have hinj := file_injective hnodup
  unfold pinnedPosition
  cases hpinned : fusion.pinnedFile with
  | none => simp
  | some file =>
    rw [Option.bind_some, Option.some.injEq]
    constructor
    · intro hfind
      have hfile := List.find?_some hfind
      exact (of_decide_eq_true hfile).symm
    · rintro rfl
      cases hfind : (List.finRange files.length).find? fun other =>
          (files.get other).file = (files.get position).file with
      | none =>
        have hnot := List.find?_eq_none.mp hfind position (List.mem_finRange position)
        simp at hnot
      | some other =>
        have hfile := List.find?_some hfind
        rw [hinj (of_decide_eq_true hfile)]

/-- The fused order is the given one, or the pinned file is put back. -/
theorem pinOrder_cases (order : List (Fin files.length)) :
    (∃ pinned held fused, fusion.pinnedPosition files = some pinned ∧
      (slots files)[held]? = some pinned ∧ order[fused]? = some pinned ∧ held < fused ∧
      fusion.pinOrder files order = putBack order fused held pinned) ∨
    fusion.pinOrder files order = order ∧
      ∀ pinned held fused, fusion.pinnedPosition files = some pinned →
        (slots files).idxOf? pinned = some held → order.idxOf? pinned = some fused →
        fused ≤ held := by
  have hposition : (fusion.pinnedFile.bind fun file => (List.finRange files.length).find?
      fun position => (files.get position).file = file) = fusion.pinnedPosition files := rfl
  unfold pinOrder
  rw [hposition]
  cases hpinned : fusion.pinnedPosition files with
  | none => exact .inr ⟨rfl, by simp⟩
  | some pinned =>
    cases hheld : (slots files).idxOf? pinned with
    | none =>
      dsimp only
      rw [hheld]
      refine .inr ⟨rfl, fun other held fused hother hmem _ => ?_⟩
      rw [← Option.some.inj hother, hheld] at hmem
      cases hmem
    | some held =>
      cases hfused : order.idxOf? pinned with
      | none =>
        dsimp only
        rw [hheld, hfused]
        refine .inr ⟨rfl, fun other i j hother _ hmem => ?_⟩
        rw [← Option.some.inj hother, hfused] at hmem
        cases hmem
      | some fused =>
        dsimp only
        rw [hheld, hfused]
        by_cases hlt : held < fused
        · exact .inl ⟨pinned, held, fused, rfl, getElem?_of_idxOf? files hheld,
            getElem?_of_idxOf? files hfused, hlt, if_pos hlt⟩
        · refine .inr ⟨if_neg hlt, fun other i j hother hi hj => ?_⟩
          rw [← Option.some.inj hother, hheld, Option.some.injEq] at hi
          rw [← Option.some.inj hother, hfused, Option.some.injEq] at hj
          omega

theorem pinOrder_perm {order : List (Fin files.length)} (h : order.Perm (slots files)) :
    (fusion.pinOrder files order).Perm (slots files) := by
  rcases fusion.pinOrder_cases files order with
    ⟨pinned, held, fused, -, -, hfused, hlt, heq⟩ | ⟨heq, -⟩
  · rw [heq]
    exact (putBack_perm hfused hlt).trans h
  · rwa [heq]

/-- The pinned file does not stand behind its position. -/
theorem pinOrder_pinned {order : List (Fin files.length)} (h : order.Perm (slots files))
    {pinned : Fin files.length} (hpinned : fusion.pinnedPosition files = some pinned)
    (heligible : (files.get pinned).eligible) :
    ∃ i held : Nat, (fusion.pinOrder files order)[i]? = some pinned ∧
      (slots files)[held]? = some pinned ∧ i ≤ held := by
  rcases fusion.pinOrder_cases files order with
    ⟨other, held, fused, hother, hheld, hfused, hlt, heq⟩ | ⟨heq, hle⟩
  · obtain rfl := Option.some.inj (hother.symm.trans hpinned)
    rw [heq]
    exact ⟨held, held, getElem?_putBack hfused hlt, hheld, Nat.le_refl _⟩
  · have hslot := (mem_slots files).mpr heligible
    obtain ⟨held, hheld⟩ := Option.isSome_iff_exists.mp (List.isSome_idxOf?.mpr hslot)
    obtain ⟨fused, hfused⟩ :=
      Option.isSome_iff_exists.mp (List.isSome_idxOf?.mpr (h.mem_iff.mpr hslot))
    rw [heq]
    exact ⟨fused, held, getElem?_of_idxOf? files hfused, getElem?_of_idxOf? files hheld,
      hle pinned held fused hpinned hheld hfused⟩

/-- The first file stays first unless the pinned file is put back before it. -/
theorem pinOrder_head? {order : List (Fin files.length)} {first : Fin files.length}
    (hfirst : (slots files).head? = some first)
    (hpinned : fusion.pinnedPosition files ≠ some first) :
    (fusion.pinOrder files order).head? = order.head? := by
  rcases fusion.pinOrder_cases files order with
    ⟨pinned, held, fused, hother, hheld, hfused, hlt, heq⟩ | ⟨heq, -⟩
  · have hpos : 0 < held := by
      refine Nat.pos_of_ne_zero fun hzero => hpinned ?_
      rw [hzero, ← List.head?_eq_getElem?, hfirst] at hheld
      rw [hother, ← hheld]
    rw [heq, List.head?_eq_getElem?, List.head?_eq_getElem?, getElem?_putBack_of_lt hpos hlt]
  · rw [heq]

end

/-! ## The decisive leader -/

section

variable {𝕜 : Type} [Field 𝕜] [LinearOrder 𝕜] [IsStrictOrderedRing 𝕜] (fusion : DenseFusion 𝕜)
  (files : List (FileEntry 𝕜))

theorem denseRankConstant_pos : (0 : 𝕜) < denseRankConstant := by
  unfold denseRankConstant
  norm_num

/-- A rank counts less than the best one. -/
theorem vote_le {weight : 𝕜} (hweight : 0 ≤ weight) (rank : Nat) :
    weight / (denseRankConstant + rank + 1) ≤ weight / (denseRankConstant + 1) := by
  have hconstant : (0 : 𝕜) < denseRankConstant := denseRankConstant_pos
  have hrank : (0 : 𝕜) ≤ rank := Nat.cast_nonneg rank
  exact div_le_div_of_nonneg_left hweight (by linarith) (by linarith)

omit [IsStrictOrderedRing 𝕜] in
/-- The leader of a decisive lead is eligible and comes first by dense score. -/
theorem denseLead_decisive {leader : Fin files.length}
    (h : denseLead files = some (leader, true)) :
    (files.get leader).eligible ∧ ((byDense files).map Prod.fst).head? = some leader := by
  unfold denseLead at h
  split at h
  · next first score second other rest hsorted =>
    obtain ⟨rfl, hdecisive⟩ := Prod.mk.inj (Option.some.inj h)
    simp only [Bool.and_eq_true] at hdecisive
    rw [hsorted]
    exact ⟨hdecisive.1.1, rfl⟩
  · cases h

theorem standingVote_le {leader : Fin files.length}
    (h : denseLead files = some (leader, true)) (position : Fin files.length) :
    fusion.standingVote files position ≤ fusion.standingVote files leader := by
  obtain ⟨heligible, hhead⟩ := denseLead_decisive files h
  unfold standingVote
  by_cases hweight : 0 < fusion.standingWeight
  · simp only [if_pos hweight]
    have hleader : (((byDense files).map Prod.fst).filter fun position =>
        (files.get position).eligible).idxOf? leader = some 0 := by
      obtain ⟨rest, hrest⟩ := List.head?_eq_some_iff.mp hhead
      rw [hrest, List.filter_cons_of_pos (by simpa using heligible)]
      simp [List.idxOf?_cons]
    rw [hleader]
    simp only [Nat.cast_zero, add_zero]
    split
    · exact vote_le hweight.le _
    · have hconstant : (0 : 𝕜) < denseRankConstant := denseRankConstant_pos
      exact div_nonneg hweight.le (by linarith)
  · simp only [if_neg hweight, le_refl]

theorem votes_lt {leader : Fin files.length} (h : denseLead files = some (leader, true))
    {position : Fin files.length} (hne : position ≠ leader) :
    fusion.votes files leader true position < fusion.votes files leader true leader := by
  have hstanding := fusion.standingVote_le files h position
  have hconstant : (0 : 𝕜) < denseRankConstant := denseRankConstant_pos
  have hrank := vote_le (zero_le_one : (0 : 𝕜) ≤ 1) ((slots files).idxOf position)
  have hown : (0 : 𝕜) < 1 / (denseRankConstant + (slots files).idxOf leader + 1) := by
    have hcast : (0 : 𝕜) ≤ ((slots files).idxOf leader : Nat) := Nat.cast_nonneg _
    exact div_pos one_pos (by linarith)
  unfold votes
  rw [if_neg fun hleader => hne hleader.2, if_pos ⟨rfl, rfl⟩]
  linarith

omit [IsStrictOrderedRing 𝕜] in
theorem fusedOrder_perm (leader : Fin files.length) (decisive : Bool) :
    (fusion.fusedOrder files leader decisive).Perm (slots files) :=
  fusion.pinOrder_perm files (List.perm_insertionSort _ _)

/-- The leader of a decisive lead comes first, unless the pinned file holds the first place. -/
theorem fusedOrder_decisive {leader first : Fin files.length}
    (h : denseLead files = some (leader, true)) (hfirst : (slots files).head? = some first)
    (hpinned : fusion.pinnedPosition files ≠ some first) :
    (fusion.fusedOrder files leader true).head? = some leader := by
  have htrans : IsTrans _ (VotesNotAfter files (fusion.votes files leader true)) :=
    ⟨fun _ _ _ => le_trans⟩
  have htotal : Std.Total (VotesNotAfter files (fusion.votes files leader true)) :=
    ⟨fun _ _ => le_total _ _⟩
  rw [fusedOrder, fusion.pinOrder_head? files hfirst hpinned]
  refine head?_insertionSort ((mem_slots files).mpr (denseLead_decisive files h).1) ?_
  intro position _ hne hbefore
  have hvotes := fusion.votes_lt files h hne
  rcases Prod.Lex.toLex_le_toLex.mp hbefore with hlt | ⟨heq, -⟩
  · exact absurd (OrderDual.toDual_lt_toDual.mp hlt) (not_lt.mpr hvotes.le)
  · exact hvotes.ne (OrderDual.toDual_inj.mp heq)

end

/-! ## Where a file moves -/

section

variable {𝕜 : Type} [Field 𝕜] [LinearOrder 𝕜] (files : List (FileEntry 𝕜))
  (order : List (Fin files.length))

/-- The position that the file of a position takes over. -/
def MovesTo (position slot : Fin files.length) : Prop :=
  (position, slot) ∈ order.zip (slots files) ∨ position ∉ order ∧ slot = position

/-- The file whose position a file takes over. -/
def slotOf : UInt64 → UInt64 :=
  placeOf (order.map fun position => (files.get position).file)
    ((slots files).map fun position => (files.get position).file)

variable {files order}

omit [Field 𝕜] [LinearOrder 𝕜] in
theorem exists_movesTo (hperm : order.Perm (slots files)) (position : Fin files.length) :
    ∃ slot, MovesTo files order position slot := by
  by_cases hmem : position ∈ order
  · obtain ⟨i, hi⟩ := List.mem_iff_getElem?.mp hmem
    have hlt : i < (slots files).length := hperm.length_eq ▸ (List.getElem?_eq_some_iff.mp hi).1
    exact ⟨(slots files)[i], .inl
      (mem_zip_iff_getElem?.mpr ⟨i, hi, List.getElem?_eq_getElem hlt⟩)⟩
  · exact ⟨position, .inr ⟨hmem, rfl⟩⟩

omit [Field 𝕜] [LinearOrder 𝕜] in
theorem slotOf_file (hnodup : (files.map FileEntry.file).Nodup) (hperm : order.Perm (slots files))
    {position slot : Fin files.length} (h : MovesTo files order position slot) :
    slotOf files order (files.get position).file = (files.get slot).file := by
  have hinj := file_injective hnodup
  rcases h with hzip | ⟨hmem, rfl⟩
  · refine placeOf_of_mem_zip (hperm.map _)
      ((hperm.nodup_iff.mpr (slots_nodup files)).map hinj) ?_
    rw [List.zip_map]
    exact List.mem_map_of_mem (f := Prod.map _ _) hzip
  · refine placeOf_of_not_mem fun hfile => hmem ?_
    obtain ⟨other, hother, heq⟩ := List.mem_map.mp hfile
    rwa [← hinj heq]

theorem scaleOf_eq_some {move : Fin files.length × Fin files.length}
    {entry : UInt64 × FileScale 𝕜} (h : scaleOf files move = some entry) :
    entry.1 = (files.get move.1).file ∧ move.2 ≠ move.1 := by
  obtain ⟨old, new⟩ := move
  simp only [scaleOf] at h
  by_cases hmoves : new ≠ old ∧ epsilon < (files.get old).score
  · rw [if_pos hmoves] at h
    obtain rfl := Option.some.inj h
    exact ⟨rfl, hmoves.1⟩
  · rw [if_neg hmoves] at h
    cases h

omit [Field 𝕜] [LinearOrder 𝕜] in
theorem MovesTo.unique (hperm : order.Perm (slots files)) {position slot other : Fin files.length}
    (h : MovesTo files order position slot) (hother : (position, other) ∈ order.zip (slots files)) :
    other = slot := by
  have hmem := (List.of_mem_zip hother).1
  have hnodup := hperm.nodup_iff.mpr (slots_nodup files)
  obtain ⟨i, hi, hslot⟩ := mem_zip_iff_getElem?.mp (h.resolve_right fun hnot => hnot.1 hmem)
  obtain ⟨j, hj, hother⟩ := mem_zip_iff_getElem?.mp hother
  have hlt := (List.getElem?_eq_some_iff.mp hi).1
  obtain rfl := (List.getElem?_inj hlt hnodup).mp (hi.trans hj.symm)
  rw [hslot, Option.some.injEq] at hother
  exact hother.symm

/-- What the moves say about the file of a position. -/
theorem scales_lookup (hnodup : (files.map FileEntry.file).Nodup)
    (hperm : order.Perm (slots files)) {position slot : Fin files.length}
    (h : MovesTo files order position slot) :
    (scales files order).lookup (files.get position).file =
      (scaleOf files (position, slot)).map Prod.snd := by
  have hinj := file_injective hnodup
  have hkeys : ((scales files order).map Prod.fst).Nodup := by
    refine List.Nodup.sublist (map_filterMap_sublist
      (g := fun move : Fin files.length × Fin files.length => (files.get move.1).file)
      (fun move entry hentry => (scaleOf_eq_some hentry).1) _) ?_
    have hfirst : (order.zip (slots files)).map (fun move => (files.get move.1).file) =
        order.map fun position => (files.get position).file := by
      rw [← map_fst_zip_of_perm hperm, List.map_map]
      rw [map_fst_zip_of_perm hperm]
      rfl
    rw [hfirst]
    exact (hperm.nodup_iff.mpr (slots_nodup files)).map hinj
  cases hscale : scaleOf files (position, slot) with
  | some entry =>
    obtain ⟨hfile, hne⟩ := scaleOf_eq_some hscale
    have hzip := h.resolve_right fun hsame => hne hsame.2
    rw [Option.map_some, lookup_eq_some_iff_of_nodup hkeys, ← hfile]
    exact List.mem_filterMap.mpr ⟨_, hzip, hscale⟩
  | none =>
    rw [Option.map_none, List.lookup_eq_none_iff]
    intro entry hentry
    obtain ⟨⟨other, target⟩, hzip, hmove⟩ := List.mem_filterMap.mp hentry
    have hne : (files.get position).file ≠ entry.1 := by
      intro heq
      rw [(scaleOf_eq_some hmove).1] at heq
      obtain rfl := hinj heq
      rw [h.unique hperm hzip, hscale] at hmove
      cases hmove
    simpa using hne

end

/-! ## The first chunks -/

section

variable {𝕜 : Type} [Field 𝕜] [LinearOrder 𝕜] (fusion : DenseFusion 𝕜) (ratios : ScoreMap 𝕜)
  (ranked : List (RankedCandidate 𝕜))

omit [Field 𝕜] [LinearOrder 𝕜] in
/-- The first chunk of a file. -/
def firstChunk (file : UInt64) : Option (RankedCandidate 𝕜) :=
  ranked.find? fun item => fusion.fileOf item = file

omit [Field 𝕜] [LinearOrder 𝕜] in
theorem firstChunk_spec {ranked : List (RankedCandidate 𝕜)} {file : UInt64}
    {head : RankedCandidate 𝕜} (h : fusion.firstChunk ranked file = some head) :
    head ∈ ranked ∧ fusion.fileOf head = file := by
  refine ⟨List.mem_of_find?_eq_some h, ?_⟩
  have hfile := List.find?_some h
  exact of_decide_eq_true hfile

/-- Whether a chunk of the file was admitted and found by direct search. -/
def EligibleFile (file : UInt64) : Prop :=
  ∃ item ∈ ranked, fusion.fileOf item = file ∧ fusion.isEligible item

theorem fileEntries_nodup : ((fusion.fileEntries ratios ranked).map FileEntry.file).Nodup := by
  rw [fileEntries_eq, List.map_map]
  have hfile : FileEntry.file ∘ fusion.entryOf ratios ranked = fusion.fileOf :=
    funext fun head => fusion.entryOf_file ratios ranked head
  rw [hfile]
  exact keepFirst_nodup ranked

theorem fileEntries_head (position : Fin (fusion.fileEntries ratios ranked).length) :
    ∃ head,
      fusion.firstChunk ranked ((fusion.fileEntries ratios ranked).get position).file = some head ∧
      ((fusion.fileEntries ratios ranked).get position).score = head.score ∧
      ((fusion.fileEntries ratios ranked).get position).unvotedRatio =
        unvotedRatio ratios head.chunk.vectorKey ∧
      (((fusion.fileEntries ratios ranked).get position).eligible ↔
        fusion.EligibleFile ranked ((fusion.fileEntries ratios ranked).get position).file) := by
  have hmem : (fusion.fileEntries ratios ranked).get position ∈
      (keepFirst fusion.fileOf ranked).map (fusion.entryOf ratios ranked) := by
    rw [← fileEntries_eq]
    exact List.getElem_mem _
  obtain ⟨head, hhead, heq⟩ := List.mem_map.mp hmem
  obtain ⟨hfile, hscore, hratio, heligible⟩ := fusion.entryAfter_spec ratios head
    (ranked.filter fun item => fusion.fileOf item = fusion.fileOf head)
  rw [← heq]
  refine ⟨head, ?_, hscore, hratio, ?_⟩
  · rw [entryOf_file]
    exact mem_keepFirst.mp hhead
  · rw [entryOf_file, entryOf, heligible]
    simp [EligibleFile]

theorem exists_position {item : RankedCandidate 𝕜} (h : item ∈ ranked) :
    ∃ position : Fin (fusion.fileEntries ratios ranked).length,
      ((fusion.fileEntries ratios ranked).get position).file = fusion.fileOf item := by
  have hfile : fusion.fileOf item ∈ (fusion.fileEntries ratios ranked).map FileEntry.file := by
    rw [fileEntries_eq, List.map_map,
      show FileEntry.file ∘ fusion.entryOf ratios ranked = fusion.fileOf from
        funext fun head => fusion.entryOf_file ratios ranked head, mem_map_keepFirst]
    exact List.mem_map_of_mem h
  obtain ⟨entry, hentry, heq⟩ := List.mem_map.mp hfile
  obtain ⟨i, hi, rfl⟩ := List.getElem_of_mem hentry
  exact ⟨⟨i, hi⟩, heq⟩

end

/-! ## The scores after the moves -/

section

variable {𝕜 : Type} [Field 𝕜] [LinearOrder 𝕜] [IsStrictOrderedRing 𝕜] (fusion : DenseFusion 𝕜)

theorem epsilon_pos : (0 : 𝕜) < epsilon := by
  unfold epsilon
  positivity

/-- What the chunks of a file are multiplied with. -/
def factorOf (scale : List (UInt64 × FileScale 𝕜)) (file : UInt64) : 𝕜 :=
  ((scale.lookup file).map FileScale.factor).getD 1

omit [LinearOrder 𝕜] [IsStrictOrderedRing 𝕜] in
theorem rescore_eq (scale : List (UInt64 × FileScale 𝕜)) (item : RankedCandidate 𝕜) :
    fusion.rescore scale item =
      { item with score := item.score * factorOf scale (fusion.fileOf item) } := by
  unfold rescore factorOf
  cases scale.lookup (fusion.fileOf item) <;> simp

/-- A file takes over the score of its new position. -/
theorem factorOf_file {files : List (FileEntry 𝕜)} {order : List (Fin files.length)}
    (hnodup : (files.map FileEntry.file).Nodup) (hperm : order.Perm (slots files))
    (hscores : ∀ position : Fin files.length, epsilon < (files.get position).score)
    {position slot : Fin files.length} (h : MovesTo files order position slot) :
    factorOf (scales files order) (files.get position).file =
      (files.get slot).score / (files.get position).score := by
  have hpos : (0 : 𝕜) < (files.get position).score := epsilon_pos.trans (hscores position)
  rw [factorOf, scales_lookup hnodup hperm h]
  by_cases hmoves : slot ≠ position
  · simp only [scaleOf, if_pos (And.intro hmoves (hscores position))]
    rfl
  · obtain rfl := not_not.mp hmoves
    simp only [scaleOf, if_neg fun hboth : slot ≠ slot ∧ _ => hmoves hboth.1]
    exact (div_self hpos.ne').symm

omit [Field 𝕜] [IsStrictOrderedRing 𝕜] in
theorem notAfter_iff {left right : RankedCandidate 𝕜} : left.NotAfter right ↔
    right.score < left.score ∨ left.score = right.score ∧
      left.chunk.vectorKey.toNat ≤ right.chunk.vectorKey.toNat := by
  show toLex (OrderDual.toDual left.score, _) ≤ toLex (OrderDual.toDual right.score, _) ↔ _
  rw [Prod.Lex.toLex_le_toLex]
  simp

/-- Chunks that are scaled alike keep their order. -/
theorem rescore_notAfter {scale : List (UInt64 × FileScale 𝕜)} {left right : RankedCandidate 𝕜}
    (hfile : fusion.fileOf left = fusion.fileOf right)
    (hpos : 0 < factorOf scale (fusion.fileOf right)) (h : left.NotAfter right) :
    (fusion.rescore scale left).NotAfter (fusion.rescore scale right) := by
  rw [rescore_eq, rescore_eq, notAfter_iff, hfile]
  rcases notAfter_iff.mp h with hlt | ⟨heq, hkey⟩
  · exact .inl (mul_lt_mul_of_pos_right hlt hpos)
  · exact .inr ⟨by rw [heq], hkey⟩

end

/-! ## The candidates after the moves -/

section

variable {𝕜 : Type} [Field 𝕜] [LinearOrder 𝕜] [IsStrictOrderedRing 𝕜] (fusion : DenseFusion 𝕜)

/-- What `fuse_dense_file_order` needs of its candidates and ratios. -/
structure IsRanked (ranked : List (RankedCandidate 𝕜)) (ratios : ScoreMap 𝕜) : Prop where
  sorted : ranked.Pairwise RankedCandidate.NotAfter
  keys : (ranked.map fun item => item.chunk.vectorKey).Nodup
  scores : ∀ item ∈ ranked, epsilon < item.score
  ratios : ∀ (key : UInt64) (ratio : 𝕜), ratios[key]? = some ratio → 0 ≤ ratio ∧ ratio ≤ 1

/-- The rescored candidates in their new order. -/
def fused (ranked : List (RankedCandidate 𝕜)) (scale : List (UInt64 × FileScale 𝕜)) :
    List (RankedCandidate 𝕜) :=
  (ranked.map (fusion.rescore scale)).insertionSort RankedCandidate.NotAfter

variable {ranked : List (RankedCandidate 𝕜)} {scale : List (UInt64 × FileScale 𝕜)}

omit [LinearOrder 𝕜] [IsStrictOrderedRing 𝕜] in
theorem fileOf_rescore (item : RankedCandidate 𝕜) :
    fusion.fileOf (fusion.rescore scale item) = fusion.fileOf item := by
  rw [rescore_eq]
  rfl

/-- The chunks of one file keep their order. -/
theorem filter_fused (hsorted : ranked.Pairwise RankedCandidate.NotAfter)
    (hpos : ∀ item ∈ ranked, 0 < factorOf scale (fusion.fileOf item)) (file : UInt64) :
    (fusion.fused ranked scale).filter (fun item => fusion.fileOf item = file) =
      (ranked.filter fun item => fusion.fileOf item = file).map (fusion.rescore scale) := by
  rw [fused, ← filter_insertionSort, List.filter_map]
  have hcomp : (fun item => decide (fusion.fileOf item = file)) ∘ fusion.rescore scale =
      fun item => decide (fusion.fileOf item = file) := by
    funext item
    rw [Function.comp_apply, fileOf_rescore]
  rw [hcomp]
  refine List.Pairwise.insertionSort_eq ?_
  rw [List.pairwise_map]
  refine (hsorted.filter _).imp_of_mem ?_
  intro left right hleft hright hnotAfter
  obtain ⟨-, hleftFile⟩ := List.mem_filter.mp hleft
  obtain ⟨hmem, hrightFile⟩ := List.mem_filter.mp hright
  refine fusion.rescore_notAfter ?_ (hpos right hmem) hnotAfter
  exact (of_decide_eq_true hleftFile).trans (of_decide_eq_true hrightFile).symm

theorem firstChunk_fused (hsorted : ranked.Pairwise RankedCandidate.NotAfter)
    (hpos : ∀ item ∈ ranked, 0 < factorOf scale (fusion.fileOf item)) (file : UInt64) :
    fusion.firstChunk (fusion.fused ranked scale) file =
      (fusion.firstChunk ranked file).map (fusion.rescore scale) := by
  have hfilter := fusion.filter_fused hsorted hpos file
  unfold firstChunk
  rw [← List.head?_filter, hfilter, List.head?_map, List.head?_filter]

omit [IsStrictOrderedRing 𝕜] in
theorem fused_nil (hsorted : ranked.Pairwise RankedCandidate.NotAfter) :
    fusion.fused ranked [] = ranked := by
  have hsame : ranked.map (fusion.rescore []) = ranked := by
    rw [show fusion.rescore [] = id from rfl, List.map_id]
  rw [fused, hsame, hsorted.insertionSort_eq]

end

/-! ## The ratios after the moves -/

section

variable {𝕜 : Type} [Field 𝕜] [LinearOrder 𝕜] (fusion : DenseFusion 𝕜)
  {scale : List (UInt64 × FileScale 𝕜)}

/-- A candidate's own ratio is the only one that its move changes. -/
theorem moveRatio_other {ratios : ScoreMap 𝕜} {item : RankedCandidate 𝕜} {key : UInt64}
    (h : item.chunk.vectorKey ≠ key) :
    unvotedRatio (fusion.moveRatio scale ratios item) key = unvotedRatio ratios key := by
  unfold moveRatio
  cases scale.lookup (fusion.fileOf item) with
  | none => rfl
  | some moved =>
    simp only [unvotedRatio, Std.ExtTreeMap.getElem?_insert]
    rw [if_neg (by simpa using h)]

theorem moveRatio_own {ratios : ScoreMap 𝕜} (item : RankedCandidate 𝕜) :
    unvotedRatio (fusion.moveRatio scale ratios item) item.chunk.vectorKey =
      match scale.lookup (fusion.fileOf item) with
      | none => unvotedRatio ratios item.chunk.vectorKey
      | some moved =>
        clampRatio ((moved.ratioFactor.map fun factor =>
          unvotedRatio ratios item.chunk.vectorKey * factor).getD moved.slotRatio) := by
  unfold moveRatio
  cases scale.lookup (fusion.fileOf item) with
  | none => rfl
  | some moved => simp [unvotedRatio]

theorem foldl_moveRatio_other {chunks : List (RankedCandidate 𝕜)} {key : UInt64}
    (h : key ∉ chunks.map fun item => item.chunk.vectorKey) (ratios : ScoreMap 𝕜) :
    unvotedRatio (chunks.foldl (fusion.moveRatio scale) ratios) key = unvotedRatio ratios key := by
  induction chunks generalizing ratios with
  | nil => rfl
  | cons item chunks ih =>
    rw [List.map_cons, List.mem_cons, not_or] at h
    rw [List.foldl_cons, ih h.2, fusion.moveRatio_other (Ne.symm h.1)]

theorem foldl_moveRatio_own {chunks : List (RankedCandidate 𝕜)} {item : RankedCandidate 𝕜}
    (hnodup : (chunks.map fun item => item.chunk.vectorKey).Nodup) (h : item ∈ chunks)
    (ratios : ScoreMap 𝕜) :
    unvotedRatio (chunks.foldl (fusion.moveRatio scale) ratios) item.chunk.vectorKey =
      unvotedRatio (fusion.moveRatio scale ratios item) item.chunk.vectorKey := by
  induction chunks generalizing ratios with
  | nil => cases h
  | cons head chunks ih =>
    rw [List.map_cons, List.nodup_cons] at hnodup
    rw [List.foldl_cons]
    rcases List.mem_cons.mp h with rfl | hmem
    · exact fusion.foldl_moveRatio_other hnodup.1 _
    · have hne : head.chunk.vectorKey ≠ item.chunk.vectorKey := by
        intro heq
        exact hnodup.1 (heq ▸ List.mem_map_of_mem (f := fun item => item.chunk.vectorKey) hmem)
      rw [ih hnodup.2 hmem, moveRatio_own, moveRatio_own, fusion.moveRatio_other hne]

end

/-! ## What a file takes over -/

section

variable {𝕜 : Type} [Field 𝕜] [LinearOrder 𝕜] [IsStrictOrderedRing 𝕜] (fusion : DenseFusion 𝕜)
  {ranked : List (RankedCandidate 𝕜)} {ratios : ScoreMap 𝕜}

omit [IsStrictOrderedRing 𝕜] in
theorem clampRatio_eq {ratio : 𝕜} (h : 0 ≤ ratio ∧ ratio ≤ 1) : clampRatio ratio = ratio := by
  rw [clampRatio, if_neg (not_lt.mpr h.1), if_neg (not_lt.mpr h.2)]

theorem IsRanked.unvotedRatio (h : IsRanked ranked ratios) (key : UInt64) :
    0 ≤ unvotedRatio ratios key ∧ unvotedRatio ratios key ≤ 1 := by
  unfold Native.unvotedRatio
  cases hratio : ratios[key]? with
  | none => exact ⟨zero_le_one, le_refl 1⟩
  | some ratio => exact h.ratios key ratio hratio

omit [IsStrictOrderedRing 𝕜] in
theorem IsRanked.positions (h : IsRanked ranked ratios)
    (position : Fin (fusion.fileEntries ratios ranked).length) :
    epsilon < ((fusion.fileEntries ratios ranked).get position).score := by
  obtain ⟨head, hhead, hscore, -⟩ := fusion.fileEntries_head ratios ranked position
  rw [hscore]
  exact h.scores head (fusion.firstChunk_spec hhead).1

variable {order : List (Fin (fusion.fileEntries ratios ranked).length)}

theorem IsRanked.factor_pos (h : IsRanked ranked ratios)
    (hperm : order.Perm (slots (fusion.fileEntries ratios ranked))) {item : RankedCandidate 𝕜}
    (hitem : item ∈ ranked) :
    0 < factorOf (scales (fusion.fileEntries ratios ranked) order) (fusion.fileOf item) := by
  obtain ⟨position, hfile⟩ := fusion.exists_position ratios ranked hitem
  obtain ⟨slot, hmoves⟩ := exists_movesTo hperm position
  rw [← hfile, factorOf_file (fusion.fileEntries_nodup ratios ranked) hperm (h.positions fusion)
    hmoves]
  exact div_pos (epsilon_pos.trans (h.positions fusion slot))
    (epsilon_pos.trans (h.positions fusion position))

/-- The first chunk of a file takes over the score and the ratio of the position. -/
theorem IsRanked.firstChunk_moved (h : IsRanked ranked ratios)
    (hperm : order.Perm (slots (fusion.fileEntries ratios ranked)))
    {position slot : Fin (fusion.fileEntries ratios ranked).length}
    (hmoves : MovesTo (fusion.fileEntries ratios ranked) order position slot) :
    ∃ head target,
      fusion.firstChunk ranked ((fusion.fileEntries ratios ranked).get position).file = some head ∧
      fusion.firstChunk ranked ((fusion.fileEntries ratios ranked).get slot).file = some target ∧
      fusion.firstChunk
          (fusion.fused ranked (scales (fusion.fileEntries ratios ranked) order))
          ((fusion.fileEntries ratios ranked).get position).file =
        some { head with score := target.score } ∧
      Native.unvotedRatio
          (ranked.foldl (fusion.moveRatio (scales (fusion.fileEntries ratios ranked) order)) ratios)
          head.chunk.vectorKey =
        Native.unvotedRatio ratios target.chunk.vectorKey := by
  have hnodup := fusion.fileEntries_nodup ratios ranked
  obtain ⟨head, hhead, hscore, hratio, -⟩ := fusion.fileEntries_head ratios ranked position
  obtain ⟨target, htarget, hscore', hratio', -⟩ := fusion.fileEntries_head ratios ranked slot
  obtain ⟨hmem, hfile⟩ := fusion.firstChunk_spec hhead
  have hpos : (0 : 𝕜) < head.score := epsilon_pos.trans (h.scores head hmem)
  refine ⟨head, target, hhead, htarget, ?_, ?_⟩
  · rw [fusion.firstChunk_fused h.sorted fun item hitem => h.factor_pos fusion hperm hitem, hhead,
      Option.map_some, rescore_eq, hfile,
      factorOf_file hnodup hperm (h.positions fusion) hmoves, hscore, hscore',
      mul_div_cancel₀ _ hpos.ne']
  · rw [fusion.foldl_moveRatio_own h.keys hmem, moveRatio_own, hfile,
      scales_lookup hnodup hperm hmoves, ← hratio, ← hratio']
    by_cases hmove : slot ≠ position
    · simp only [scaleOf, if_pos (And.intro hmove (h.positions fusion position)), Option.map_some]
      have htaken : ((if epsilon <
            ((fusion.fileEntries ratios ranked).get position).unvotedRatio then
            some (((fusion.fileEntries ratios ranked).get slot).unvotedRatio /
              ((fusion.fileEntries ratios ranked).get position).unvotedRatio)
          else none).map fun factor =>
            ((fusion.fileEntries ratios ranked).get position).unvotedRatio * factor).getD
              ((fusion.fileEntries ratios ranked).get slot).unvotedRatio =
          ((fusion.fileEntries ratios ranked).get slot).unvotedRatio := by
        split
        · next hlarge =>
          exact mul_div_cancel₀ _ (epsilon_pos.trans hlarge).ne'
        · rfl
      rw [htaken, hratio']
      exact clampRatio_eq (h.unvotedRatio _)
    · obtain rfl := not_not.mp hmove
      simp only [scaleOf, if_neg fun hboth : slot ≠ slot ∧ _ => hmove hboth.1, Option.map_none]

end

/-! ## The distributions over the positions -/

section

variable {𝕜 : Type} [Field 𝕜] [LinearOrder 𝕜] [IsStrictOrderedRing 𝕜] (fusion : DenseFusion 𝕜)

/-- The score of each position with its unvoted score: those of the first chunks in their order. -/
def positionPairs (ranked : List (RankedCandidate 𝕜)) (ratios : ScoreMap 𝕜) : List (𝕜 × 𝕜) :=
  (keepFirst fusion.fileOf ranked).map fun head =>
    (head.score, head.score * Native.unvotedRatio ratios head.chunk.vectorKey)

/-- The best scores of the files in their order. -/
def bestScores (ranked : List (RankedCandidate 𝕜)) : List 𝕜 :=
  (keepFirst fusion.fileOf ranked).map RankedCandidate.score

omit [LinearOrder 𝕜] [IsStrictOrderedRing 𝕜] in
theorem map_fst_positionPairs (ranked : List (RankedCandidate 𝕜)) (ratios : ScoreMap 𝕜) :
    (fusion.positionPairs ranked ratios).map Prod.fst = fusion.bestScores ranked := by
  rw [positionPairs, List.map_map]
  rfl

omit [Field 𝕜] [IsStrictOrderedRing 𝕜] in
theorem bestScores_sorted {ranked : List (RankedCandidate 𝕜)}
    (h : ranked.Pairwise RankedCandidate.NotAfter) :
    (fusion.bestScores ranked).Pairwise fun left right => right ≤ left := by
  rw [bestScores, List.pairwise_map]
  refine (h.sublist (keepFirst_sublist _ _)).imp fun hnotAfter => ?_
  rcases notAfter_iff.mp hnotAfter with hlt | ⟨heq, -⟩
  · exact hlt.le
  · exact heq.ge

variable {ranked : List (RankedCandidate 𝕜)} {ratios : ScoreMap 𝕜}
  {order : List (Fin (fusion.fileEntries ratios ranked).length)}

omit [IsStrictOrderedRing 𝕜] in
/-- The exchange permutes the files. -/
theorem map_slotOf_perm (hperm : order.Perm (slots (fusion.fileEntries ratios ranked))) :
    (((keepFirst fusion.fileOf ranked).map fusion.fileOf).map
      (slotOf (fusion.fileEntries ratios ranked) order)).Perm
      ((keepFirst fusion.fileOf ranked).map fusion.fileOf) := by
  have hnodup := fusion.fileEntries_nodup ratios ranked
  have hinj := file_injective hnodup
  have hexchange : Function.Injective (slotOf (fusion.fileEntries ratios ranked) order) :=
    (exchange (hperm.map _)
      ((hperm.nodup_iff.mpr (slots_nodup _)).map hinj)).injective
  have hfiles : ((keepFirst fusion.fileOf ranked).map fusion.fileOf).Nodup :=
    keepFirst_nodup ranked
  refine ((List.subperm_of_subset (hfiles.map hexchange) ?_).perm_of_length_le (by simp))
  intro file hfile
  obtain ⟨old, hold, rfl⟩ := List.mem_map.mp hfile
  obtain ⟨item, hitem, rfl⟩ := List.mem_map.mp (mem_map_keepFirst.mp hold)
  obtain ⟨position, hposition⟩ := fusion.exists_position ratios ranked hitem
  obtain ⟨slot, hmoves⟩ := exists_movesTo hperm position
  rw [← hposition, slotOf_file hnodup hperm hmoves, mem_map_keepFirst]
  obtain ⟨head, hhead, -⟩ := fusion.fileEntries_head ratios ranked slot
  obtain ⟨hmem, heq⟩ := fusion.firstChunk_spec hhead
  rw [← heq]
  exact List.mem_map_of_mem hmem

/-- The positions keep their pairs of score and unvoted score. -/
theorem IsRanked.pairs_perm (h : IsRanked ranked ratios)
    (hperm : order.Perm (slots (fusion.fileEntries ratios ranked))) :
    (fusion.positionPairs
        (fusion.fused ranked (scales (fusion.fileEntries ratios ranked) order))
        (ranked.foldl (fusion.moveRatio (scales (fusion.fileEntries ratios ranked) order))
          ratios)).Perm
      (fusion.positionPairs ranked ratios) := by
  have hnodup := fusion.fileEntries_nodup ratios ranked
  -- The pair of the position that a file holds at first.
  let pairOf (file : UInt64) : Option (𝕜 × 𝕜) := (fusion.firstChunk ranked file).map fun head =>
    (head.score, head.score * Native.unvotedRatio ratios head.chunk.vectorKey)
  rw [← List.map_perm_map_iff (Option.some_injective _)]
  have hbefore : (fusion.positionPairs ranked ratios).map some =
      ((keepFirst fusion.fileOf ranked).map fusion.fileOf).map pairOf := by
    rw [positionPairs, List.map_map, List.map_map]
    refine List.map_congr_left fun head hhead => ?_
    have hfirst : fusion.firstChunk ranked (fusion.fileOf head) = some head :=
      mem_keepFirst.mp hhead
    simp only [Function.comp_apply, pairOf, hfirst, Option.map_some]
  have hheads : (keepFirst fusion.fileOf
      (fusion.fused ranked (scales (fusion.fileEntries ratios ranked) order))).Perm
      ((keepFirst fusion.fileOf ranked).map
        (fusion.rescore (scales (fusion.fileEntries ratios ranked) order))) :=
    keepFirst_perm_map (fun item => fusion.fileOf_rescore item)
      (fusion.firstChunk_fused h.sorted fun item hitem => h.factor_pos fusion hperm hitem)
  have hafter : (((keepFirst fusion.fileOf ranked).map fusion.fileOf).map
      (slotOf (fusion.fileEntries ratios ranked) order)).map pairOf =
      (((keepFirst fusion.fileOf ranked).map
        (fusion.rescore (scales (fusion.fileEntries ratios ranked) order))).map fun head =>
          (head.score, head.score * Native.unvotedRatio (ranked.foldl
            (fusion.moveRatio (scales (fusion.fileEntries ratios ranked) order)) ratios)
            head.chunk.vectorKey)).map some := by
    rw [List.map_map, List.map_map, List.map_map, List.map_map]
    refine List.map_congr_left fun head hhead => ?_
    have hfirst : fusion.firstChunk ranked (fusion.fileOf head) = some head :=
      mem_keepFirst.mp hhead
    obtain ⟨position, hposition⟩ := fusion.exists_position ratios ranked
      ((keepFirst_sublist _ _).subset hhead)
    obtain ⟨slot, hmoves⟩ := exists_movesTo hperm position
    obtain ⟨head', target, hhead', htarget, hmoved, hratio⟩ :=
      h.firstChunk_moved fusion hperm hmoves
    rw [hposition, hfirst, Option.some.injEq] at hhead'
    subst hhead'
    rw [hposition, fusion.firstChunk_fused h.sorted
      (fun item hitem => h.factor_pos fusion hperm hitem), hfirst, Option.map_some,
      Option.some.injEq] at hmoved
    simp only [Function.comp_apply, pairOf]
    rw [← hposition, slotOf_file hnodup hperm hmoves, htarget, hmoved]
    simp only [Option.map_some, hratio]
  rw [hbefore]
  refine ((hheads.map _).map some).trans ?_
  rw [← hafter]
  exact (fusion.map_slotOf_perm hperm).map pairOf

end

/-! ## Single files -/

section

variable {𝕜 : Type} [Field 𝕜] [LinearOrder 𝕜] [IsStrictOrderedRing 𝕜] (fusion : DenseFusion 𝕜)
  {ranked : List (RankedCandidate 𝕜)} {ratios : ScoreMap 𝕜}
  {order : List (Fin (fusion.fileEntries ratios ranked).length)}

omit [IsStrictOrderedRing 𝕜] in
theorem not_mem_order (hperm : order.Perm (slots (fusion.fileEntries ratios ranked)))
    {position : Fin (fusion.fileEntries ratios ranked).length}
    (h : ¬ fusion.EligibleFile ranked ((fusion.fileEntries ratios ranked).get position).file) :
    MovesTo (fusion.fileEntries ratios ranked) order position position := by
  refine .inr ⟨fun hmem => h ?_, rfl⟩
  obtain ⟨head, -, -, -, heligible⟩ := fusion.fileEntries_head ratios ranked position
  exact heligible.mp ((mem_slots _).mp (hperm.mem_iff.mp hmem))

/-- A file that is not eligible keeps its scores. -/
theorem IsRanked.filter_not_eligible (h : IsRanked ranked ratios)
    (hperm : order.Perm (slots (fusion.fileEntries ratios ranked))) {file : UInt64}
    (hfile : ¬ fusion.EligibleFile ranked file) :
    (fusion.fused ranked (scales (fusion.fileEntries ratios ranked) order)).filter
        (fun item => fusion.fileOf item = file) =
      ranked.filter fun item => fusion.fileOf item = file := by
  rw [fusion.filter_fused h.sorted fun item hitem => h.factor_pos fusion hperm hitem]
  conv => rhs; rw [← List.map_id (ranked.filter _)]
  refine List.map_congr_left fun item hitem => ?_
  obtain ⟨hmem, hof⟩ := List.mem_filter.mp hitem
  obtain rfl := of_decide_eq_true hof
  obtain ⟨position, hposition⟩ := fusion.exists_position ratios ranked hmem
  rw [← hposition] at hfile
  have hfactor := factorOf_file (fusion.fileEntries_nodup ratios ranked) hperm
    (h.positions fusion) (fusion.not_mem_order hperm hfile)
  rw [div_self (epsilon_pos.trans (h.positions fusion position)).ne', hposition] at hfactor
  rw [rescore_eq, hfactor, mul_one, id]

omit [IsStrictOrderedRing 𝕜] in
/-- The best scores descend with the positions. -/
theorem IsRanked.score_le (h : IsRanked ranked ratios)
    {p q : Fin (fusion.fileEntries ratios ranked).length} (hle : q ≤ p) :
    ((fusion.fileEntries ratios ranked).get p).score ≤
      ((fusion.fileEntries ratios ranked).get q).score := by
  rcases eq_or_lt_of_le hle with rfl | hlt
  · exact le_refl _
  · have hscores : (fusion.fileEntries ratios ranked).map FileEntry.score =
        fusion.bestScores ranked := by
      rw [fileEntries_eq, List.map_map, bestScores]
      exact List.map_congr_left fun head _ => (fusion.entryAfter_spec ratios head _).2.1
    have hsorted := fusion.bestScores_sorted h.sorted
    rw [← hscores, List.pairwise_map] at hsorted
    exact List.pairwise_iff_getElem.mp hsorted q p q.isLt p.isLt hlt

variable (ranked ratios) in
/-- What is known of the order in which the eligible files end up. -/
structure IsFusedOrder (order : List (Fin (fusion.fileEntries ratios ranked).length)) : Prop where
  perm : order.Perm (slots (fusion.fileEntries ratios ranked))
  pinned : ∀ pinned, fusion.pinnedPosition (fusion.fileEntries ratios ranked) = some pinned →
    ((fusion.fileEntries ratios ranked).get pinned).eligible →
    ∃ i held : Nat, order[i]? = some pinned ∧
      (slots (fusion.fileEntries ratios ranked))[held]? = some pinned ∧ i ≤ held
  decisive : ∀ leader first,
    denseLead (fusion.fileEntries ratios ranked) = some (leader, true) →
    (slots (fusion.fileEntries ratios ranked)).head? = some first →
    fusion.pinnedPosition (fusion.fileEntries ratios ranked) ≠ some first →
    order.head? = some leader

/-- The best score of the pinned file does not decrease. -/
theorem IsRanked.pinned_le (h : IsRanked ranked ratios)
    (horder : fusion.IsFusedOrder ranked ratios order)
    {file : UInt64} (hpinned : fusion.pinnedFile = some file) {before : RankedCandidate 𝕜}
    (hbefore : fusion.firstChunk ranked file = some before) :
    ∃ after, fusion.firstChunk
        (fusion.fused ranked (scales (fusion.fileEntries ratios ranked) order)) file =
          some after ∧ before.score ≤ after.score := by
  obtain ⟨hmem, rfl⟩ := fusion.firstChunk_spec hbefore
  obtain ⟨position, hposition⟩ := fusion.exists_position ratios ranked hmem
  obtain ⟨slot, hmoves, hle⟩ : ∃ slot,
      MovesTo (fusion.fileEntries ratios ranked) order position slot ∧ slot ≤ position := by
    by_cases heligible : ((fusion.fileEntries ratios ranked).get position).eligible
    · have hat : fusion.pinnedPosition (fusion.fileEntries ratios ranked) = some position :=
        (fusion.pinnedPosition_eq _ (fusion.fileEntries_nodup ratios ranked)).mpr
          (hpinned.trans (congrArg some hposition.symm))
      obtain ⟨i, held, hi, hheld, hle⟩ := horder.pinned position hat heligible
      obtain ⟨hlt, hget⟩ := List.getElem?_eq_some_iff.mp hheld
      have hi' : i < (slots (fusion.fileEntries ratios ranked)).length := by omega
      refine ⟨(slots (fusion.fileEntries ratios ranked))[i],
        .inl (mem_zip_iff_getElem?.mpr ⟨i, hi, List.getElem?_eq_getElem hi'⟩), ?_⟩
      rw [← hget]
      rcases Nat.lt_or_eq_of_le hle with hless | rfl
      · exact (List.pairwise_iff_getElem.mp (slots_sorted _) i held hi' hlt hless).le
      · exact le_refl _
    · refine ⟨position, .inr ⟨fun hmem => heligible ?_, rfl⟩, le_refl _⟩
      exact (mem_slots _).mp (horder.perm.mem_iff.mp hmem)
  obtain ⟨head, target, hhead, htarget, hmoved, -⟩ := h.firstChunk_moved fusion horder.perm hmoves
  rw [hposition] at hhead hmoved
  obtain rfl := Option.some.inj (hhead.symm.trans hbefore)
  refine ⟨_, hmoved, ?_⟩
  obtain ⟨first, hfirst, hscore, -⟩ := fusion.fileEntries_head ratios ranked position
  obtain ⟨second, hsecond, hscore', -⟩ := fusion.fileEntries_head ratios ranked slot
  rw [hposition, hbefore, Option.some.injEq] at hfirst
  obtain rfl := Option.some.inj (hsecond.symm.trans htarget)
  have hscores := h.score_le fusion hle
  rwa [hscore, hscore', ← hfirst] at hscores

end

/-! ## The whole fusion -/

section

variable {𝕜 : Type} [Field 𝕜] [LinearOrder 𝕜] [IsStrictOrderedRing 𝕜] (fusion : DenseFusion 𝕜)

instance (ranked : List (RankedCandidate 𝕜)) (file : UInt64) :
    Decidable (fusion.EligibleFile ranked file) :=
  inferInstanceAs (Decidable (∃ item ∈ ranked, fusion.fileOf item = file ∧ fusion.isEligible item))

/-- The first chunk of the highest-ranked eligible file. -/
def firstEligible (ranked : List (RankedCandidate 𝕜)) : Option (RankedCandidate 𝕜) :=
  (keepFirst fusion.fileOf ranked).find? fun head =>
    fusion.EligibleFile ranked (fusion.fileOf head)

/-- The dense lead is decisive, and its leader is eligible. -/
def DecisiveLeader (ranked : List (RankedCandidate 𝕜)) (ratios : ScoreMap 𝕜) (file : UInt64) :
    Prop :=
  ∃ leader, denseLead (fusion.fileEntries ratios ranked) = some (leader, true) ∧
    ((fusion.fileEntries ratios ranked).get leader).file = file

omit [IsStrictOrderedRing 𝕜] in
theorem firstEligible_slots {ranked : List (RankedCandidate 𝕜)} (ratios : ScoreMap 𝕜)
    {first : RankedCandidate 𝕜} (h : fusion.firstEligible ranked = some first) :
    ∃ position, (slots (fusion.fileEntries ratios ranked)).head? = some position ∧
      fusion.firstChunk ranked ((fusion.fileEntries ratios ranked).get position).file =
        some first := by
  have hfind : (fusion.fileEntries ratios ranked).find? FileEntry.eligible =
      some (fusion.entryOf ratios ranked first) := by
    rw [fileEntries_eq, List.find?_map]
    have heligible : FileEntry.eligible ∘ fusion.entryOf ratios ranked =
        fun head => decide (fusion.EligibleFile ranked (fusion.fileOf head)) := by
      funext head
      rw [Function.comp_apply, entryOf, (fusion.entryAfter_spec ratios head _).2.2.2, eq_comm,
        Bool.eq_iff_iff, decide_eq_true_iff]
      simp [EligibleFile]
    rw [heligible, show (keepFirst fusion.fileOf ranked).find? _ = some first from h,
      Option.map_some]
  have hentries : fusion.fileEntries ratios ranked =
      (List.finRange (fusion.fileEntries ratios ranked).length).map
        (fusion.fileEntries ratios ranked).get := by simp
  rw [hentries, List.find?_map] at hfind
  obtain ⟨position, hposition, hentry⟩ := Option.map_eq_some_iff.mp hfind
  refine ⟨position, ?_, ?_⟩
  · rw [slots, List.head?_filter]
    exact hposition
  · have hfile : ((fusion.fileEntries ratios ranked).get position).file = fusion.fileOf first := by
      rw [← fusion.entryOf_file ratios ranked first, ← hentry]
    rw [hfile]
    exact mem_keepFirst.mp (List.mem_of_find?_eq_some h)

omit [IsStrictOrderedRing 𝕜] in
theorem scales_slots (files : List (FileEntry 𝕜)) : scales files (slots files) = [] := by
  rw [scales, List.filterMap_eq_nil_iff]
  rintro ⟨old, new⟩ hmove
  obtain ⟨i, hold, hnew⟩ := mem_zip_iff_getElem?.mp hmove
  obtain rfl := Option.some.inj (hold.symm.trans hnew)
  simp [scaleOf]

/-- The fusion rescores by the moves of a fused order. -/
theorem fuseDenseFileOrder_eq {ranked : List (RankedCandidate 𝕜)} {ratios : ScoreMap 𝕜}
    (h : IsRanked ranked ratios) :
    ∃ order, fusion.IsFusedOrder ranked ratios order ∧
      fusion.fuseDenseFileOrder ranked ratios =
        (fusion.fused ranked (scales (fusion.fileEntries ratios ranked) order),
          if ratios.isEmpty then ratios
          else ranked.foldl (fusion.moveRatio
            (scales (fusion.fileEntries ratios ranked) order)) ratios) := by
  have hunmoved : ∀ scale, scale = [] → (ranked, ratios) = (fusion.fused ranked scale,
      if ratios.isEmpty then ratios else ranked.foldl (fusion.moveRatio scale) ratios) := by
    rintro _ rfl
    have hfold : ∀ chunks : List (RankedCandidate 𝕜),
        chunks.foldl (fusion.moveRatio []) ratios = ratios := by
      intro chunks
      induction chunks with
      | nil => rfl
      | cons item chunks ih => exact ih
    rw [fusion.fused_nil h.sorted, hfold, ite_self]
  -- The files that stay have the order of their positions.
  have hstay : (∀ leader,
      denseLead (fusion.fileEntries ratios ranked) ≠ some (leader, true)) →
      fusion.IsFusedOrder ranked ratios (slots (fusion.fileEntries ratios ranked)) := by
    intro hlead
    refine ⟨List.Perm.refl _, fun pinned _ heligible => ?_, fun leader _ hleader => ?_⟩
    · obtain ⟨held, hheld⟩ := List.mem_iff_getElem?.mp ((mem_slots _).mpr heligible)
      exact ⟨held, held, hheld, hheld, Nat.le_refl _⟩
    · exact absurd hleader (hlead leader)
  unfold fuseDenseFileOrder
  simp only
  split
  · next hnone =>
    refine ⟨_, hstay fun leader hlead => ?_, hunmoved _ (scales_slots _)⟩
    rw [hnone] at hlead
    cases hlead
  · next leader decisive hlead =>
    split
    · next hgate =>
      refine ⟨_, hstay fun other hother => hgate.2 ?_, hunmoved _ (scales_slots _)⟩
      rw [hlead] at hother
      exact (Prod.mk.inj (Option.some.inj hother)).2
    · have horder : fusion.IsFusedOrder ranked ratios
          (fusion.fusedOrder (fusion.fileEntries ratios ranked) leader decisive) := by
        refine ⟨fusion.fusedOrder_perm _ leader decisive, fun pinned hpinned heligible =>
          fusion.pinOrder_pinned _ (List.perm_insertionSort _ _) hpinned heligible,
          fun other first hother hfirst hpinned => ?_⟩
        rw [hlead] at hother
        obtain ⟨rfl, rfl⟩ := Prod.mk.inj (Option.some.inj hother)
        exact fusion.fusedOrder_decisive _ hlead hfirst hpinned
      refine ⟨_, horder, ?_⟩
      split
      · next hnone => exact hunmoved _ hnone
      · rfl

/-- What the fusion keeps of the candidates and their ratios, and what it moves. -/
structure Redistributes (ranked : List (RankedCandidate 𝕜)) (ratios : ScoreMap 𝕜)
    (after : List (RankedCandidate 𝕜)) (ratiosAfter : ScoreMap 𝕜) : Prop where
  chunks : (after.map RankedCandidate.chunk).Perm (ranked.map RankedCandidate.chunk)
  sorted : after.Pairwise RankedCandidate.NotAfter
  fileOrder : ∀ file, (after.filter fun item => fusion.fileOf item = file).map
      (fun item => (item.chunk, item.sources)) =
    (ranked.filter fun item => fusion.fileOf item = file).map
      fun item => (item.chunk, item.sources)
  bestScores : fusion.bestScores after = fusion.bestScores ranked
  notEligible : ∀ file, ¬ fusion.EligibleFile ranked file →
    (after.filter fun item => fusion.fileOf item = file) =
      ranked.filter fun item => fusion.fileOf item = file
  pinned : ∀ file before, fusion.pinnedFile = some file →
    fusion.firstChunk ranked file = some before →
    ∃ moved, fusion.firstChunk after file = some moved ∧ before.score ≤ moved.score
  decisive : ∀ file first, fusion.DecisiveLeader ranked ratios file →
    fusion.firstEligible ranked = some first →
    fusion.pinnedFile ≠ some (fusion.fileOf first) →
    ∃ moved, fusion.firstChunk after file = some moved ∧ moved.score = first.score
  /-- Each file takes over the position of one file. -/
  positions : ¬ ratios.isEmpty → ∃ slotOf : Equiv.Perm UInt64, ∀ file before,
    fusion.firstChunk ranked file = some before →
    ∃ target moved, fusion.firstChunk ranked (slotOf file) = some target ∧
      fusion.firstChunk after file = some moved ∧ moved.chunk = before.chunk ∧
      moved.score = target.score ∧
      Native.unvotedRatio ratiosAfter moved.chunk.vectorKey =
        Native.unvotedRatio ratios target.chunk.vectorKey
  pairs : ¬ ratios.isEmpty →
    (fusion.positionPairs after ratiosAfter).Perm (fusion.positionPairs ranked ratios)
  /-- Only files that tie can change the sequence. -/
  pairsOrder : ¬ ratios.isEmpty → (fusion.bestScores ranked).Nodup →
    fusion.positionPairs after ratiosAfter = fusion.positionPairs ranked ratios

theorem fuseDenseFileOrder_redistributes (ranked : List (RankedCandidate 𝕜)) (ratios : ScoreMap 𝕜)
    (h : IsRanked ranked ratios) :
    fusion.Redistributes ranked ratios (fusion.fuseDenseFileOrder ranked ratios).1
      (fusion.fuseDenseFileOrder ranked ratios).2 := by
  obtain ⟨order, horder, heq⟩ := fusion.fuseDenseFileOrder_eq h
  rw [heq]
  have hfiles := fusion.fileEntries_nodup ratios ranked
  have hsorted : (fusion.fused ranked
      (scales (fusion.fileEntries ratios ranked) order)).Pairwise RankedCandidate.NotAfter :=
    List.pairwise_insertionSort _ _
  have hpairs := h.pairs_perm fusion horder.perm
  have hscores := hpairs.map Prod.fst
  rw [map_fst_positionPairs, map_fst_positionPairs] at hscores
  constructor
  case chunks =>
    refine ((List.perm_insertionSort _ _).map _).trans ?_
    rw [List.map_map]
    refine List.Perm.of_eq (List.map_congr_left fun item _ => ?_)
    rw [Function.comp_apply, rescore_eq]
  case sorted => exact hsorted
  case fileOrder =>
    intro file
    rw [fusion.filter_fused h.sorted (fun item hitem => h.factor_pos fusion horder.perm hitem),
      List.map_map]
    refine List.map_congr_left fun item _ => ?_
    rw [Function.comp_apply, rescore_eq]
  case bestScores =>
    refine hscores.eq_of_pairwise ?_ (fusion.bestScores_sorted hsorted)
      (fusion.bestScores_sorted h.sorted)
    intro a b _ _ hle hge
    exact le_antisymm hge hle
  case notEligible => exact fun file hfile => h.filter_not_eligible fusion horder.perm hfile
  case pinned => exact fun file before hpinned hbefore => h.pinned_le fusion horder hpinned hbefore
  case decisive =>
    rintro _ first ⟨leader, hlead, rfl⟩ hfirst hpinned
    obtain ⟨position, hhead, hchunk⟩ := fusion.firstEligible_slots ratios hfirst
    have hfile := (fusion.firstChunk_spec hchunk).2
    have hnot : fusion.pinnedPosition (fusion.fileEntries ratios ranked) ≠ some position := by
      intro hposition
      rw [fusion.pinnedPosition_eq _ hfiles] at hposition
      exact hpinned (hposition.trans (congrArg some hfile.symm))
    have hleader := horder.decisive leader position hlead hhead hnot
    rw [List.head?_eq_getElem?] at hleader hhead
    obtain ⟨head, target, -, htarget, hmoved, -⟩ := h.firstChunk_moved fusion horder.perm
      (.inl (mem_zip_iff_getElem?.mpr ⟨0, hleader, hhead⟩))
    obtain rfl := Option.some.inj (htarget.symm.trans hchunk)
    exact ⟨_, hmoved, rfl⟩
  case positions =>
    intro hused
    rw [if_neg hused]
    refine ⟨exchange (horder.perm.map _) ((horder.perm.nodup_iff.mpr (slots_nodup _)).map
      (file_injective hfiles)), fun file before hbefore => ?_⟩
    obtain ⟨hmem, rfl⟩ := fusion.firstChunk_spec hbefore
    obtain ⟨position, hposition⟩ := fusion.exists_position ratios ranked hmem
    obtain ⟨slot, hmoves⟩ := exists_movesTo horder.perm position
    obtain ⟨head, target, hhead, htarget, hmoved, hratio⟩ :=
      h.firstChunk_moved fusion horder.perm hmoves
    rw [← slotOf_file hfiles horder.perm hmoves, hposition] at htarget
    rw [hposition] at hhead hmoved
    obtain rfl := Option.some.inj (hhead.symm.trans hbefore)
    exact ⟨target, _, htarget, hmoved, rfl, rfl, hratio⟩
  case pairs =>
    intro hused
    rw [if_neg hused]
    exact hpairs
  case pairsOrder =>
    intro hused hdistinct
    rw [if_neg hused]
    refine eq_of_descending hpairs ?_ ?_ ?_
    · rw [map_fst_positionPairs]
      exact fusion.bestScores_sorted hsorted
    · rw [map_fst_positionPairs]
      exact fusion.bestScores_sorted h.sorted
    · rwa [map_fst_positionPairs]

end

/-! ## Files that tie -/

/-- The only chunk of a file. -/
private def tiedChunk (path : Char) (key : UInt64) : RankedCandidate ℚ :=
  ⟨⟨[path], 1, 1, [], [], [], key, false⟩, 10, sourceLexical⟩

/-- Two files with one score, the second of which has a decisive dense lead. -/
private def tiedFusion : DenseFusion ℚ where
  pathKey path := if path = ['a'] then 1 else 2
  dense := ((∅ : ScoreMap ℚ).insert 1 1).insert 2 2
  standingWeight := 0
  pinnedFile := none
  admits _ := true

private def tiedRanked : List (RankedCandidate ℚ) := [tiedChunk 'a' 1, tiedChunk 'b' 2]

private def tiedRatios : ScoreMap ℚ := (∅ : ScoreMap ℚ).insert 1 (1 / 2)

private theorem tied_isRanked : IsRanked tiedRanked tiedRatios where
  sorted := by decide +kernel
  keys := by decide
  scores := by decide +kernel
  ratios := by
    intro key ratio h
    rw [tiedRatios, Std.ExtTreeMap.getElem?_insert] at h
    split at h
    · obtain rfl := Option.some.inj h
      norm_num
    · simp at h

/-- The second file gets the ratio of the first one, and the sort puts it second again. -/
theorem tied_files_swap_pairs :
    IsRanked tiedRanked tiedRatios ∧ ¬ tiedRatios.isEmpty ∧
      tiedFusion.positionPairs tiedRanked tiedRatios = [(10, 5), (10, 10)] ∧
      tiedFusion.positionPairs (tiedFusion.fuseDenseFileOrder tiedRanked tiedRatios).1
        (tiedFusion.fuseDenseFileOrder tiedRanked tiedRatios).2 = [(10, 10), (10, 5)] :=
  ⟨tied_isRanked, by decide +kernel, by decide +kernel, by decide +kernel⟩

/-- The first file keeps its chunk in front. -/
theorem fuseDenseFileOrder_redistributes_tied :
    tiedFusion.bestScores (tiedFusion.fuseDenseFileOrder tiedRanked tiedRatios).1 = [10, 10] :=
  (tiedFusion.fuseDenseFileOrder_redistributes tiedRanked tiedRatios tied_isRanked).bestScores.trans
    (by decide +kernel)

end Ivygrep.Native.DenseFusion
