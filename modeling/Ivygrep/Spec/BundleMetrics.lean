import Ivygrep.Native.ContextBundle
import Ivygrep.Spec.TokenBudgetCorrect

/-!
# The number of used tokens

A bundle prints the number of its tokens in the text that it counts. The rounds that estimate the
text again end with a number that is the estimate of the text it is printed in.
-/

namespace Ivygrep.Native

namespace ContextBundle

/-! ## A number that counts its own text -/

section SelfCount

variable {width cost : Nat → Nat} {bound : Nat}

theorem cost_le_add (hcost : ∀ w, cost w ≤ cost (w + 1) ∧ cost (w + 1) ≤ cost w + 1)
    (low steps : Nat) : cost low ≤ cost (low + steps) ∧ cost (low + steps) ≤ cost low + steps := by
  induction steps with
  | zero => exact ⟨Nat.le_refl _, Nat.le_refl _⟩
  | succ steps ih =>
    have hstep := hcost (low + steps)
    rw [← Nat.add_assoc]
    omega

/-- A text whose cost depends on the width of a number in it, by no more than one for each step of
    the width. When the widths of close numbers are close, three rounds settle the number. -/
theorem cost_settles (hwidth : ∀ u ≤ bound, 1 ≤ width u ∧ width u ≤ 5)
    (hmono : ∀ u v, u ≤ v → width u ≤ width v)
    (hnear : ∀ u v, v ≤ u + 5 → width v ≤ width u + 1)
    (hcost : ∀ w, cost w ≤ cost (w + 1) ∧ cost (w + 1) ≤ cost w + 1) (hbound : ∀ w, cost w ≤ bound)
    {first second third : Nat} (hfirst : first ≤ bound) (hsecond : second = cost (width first))
    (hthird : third = cost (width second)) :
    cost (width (cost (width third))) = cost (width third) := by
  have hclose : third ≤ second + 4 ∧ second ≤ third + 4 := by
    have hone := hwidth first hfirst
    have htwo := hwidth second (by rw [hsecond]; exact hbound _)
    rcases Nat.le_total (width first) (width second) with hle | hle
    · obtain ⟨steps, hsteps⟩ := Nat.exists_eq_add_of_le hle
      have hadd := cost_le_add hcost (width first) steps
      rw [← hsteps, ← hsecond, ← hthird] at hadd
      omega
    · obtain ⟨steps, hsteps⟩ := Nat.exists_eq_add_of_le hle
      have hadd := cost_le_add hcost (width second) steps
      rw [← hsteps, ← hsecond, ← hthird] at hadd
      omega
  have hup := hnear second third (by omega)
  have hdown := hnear third second (by omega)
  -- The width of the third number differs from that of the second by one, or is the same.
  have hsame : width (cost (width third)) = width third := by
    rcases Nat.lt_trichotomy (width second) (width third) with hlt | heq | hgt
    · have hwidth : width third = width second + 1 := by omega
      have hstep := hcost (width second)
      rw [← hwidth, ← hthird] at hstep
      have hlow := hmono third (cost (width third)) hstep.1
      have hhigh := hnear second (cost (width third)) (by omega)
      omega
    · rw [← heq, ← hthird]
      exact heq.symm
    · have hwidth : width second = width third + 1 := by omega
      have hstep := hcost (width third)
      rw [← hwidth, ← hthird] at hstep
      have hlow := hmono (cost (width third)) third hstep.1
      have hhigh := hnear (cost (width third)) second (by omega)
      omega
  rw [hsame]

end SelfCount

/-- The number of tokens of a number. -/
def width (n : Nat) : Nat := divCeil (digits n).length 4

theorem digits_ne_nil (n : Nat) : digits n ≠ [] := Nat.toDigits_ne_nil

theorem tokenClass_of_mem_digits {n : Nat} {c : Char} (h : c ∈ digits n) : tokenClass c = .word := by
  have hdigit : c.isDigit = true := Nat.isDigit_of_mem_toDigits (by decide) (by decide) h
  have hrange : 48 ≤ c.toNat ∧ c.toNat ≤ 57 := by
    simpa [Char.isDigit, UInt32.le_iff_toNat_le] using hdigit
  have hnewline : c ≠ '\n' := by
    rintro rfl
    exact absurd hrange.1 (by decide)
  have hblank : isWhitespace c = false := by
    simp only [isWhitespace, Bool.or_eq_false_iff, Bool.and_eq_false_iff, decide_eq_false_iff_not,
      beq_eq_false_iff_ne]
    omega
  have halphanum : c.isAlphanum = true := by simp [Char.isAlphanum, hdigit]
  simp [tokenClass, hnewline, hblank, halphanum]

theorem width_le_iff {n tokens : Nat} (h : 0 < tokens) : width n ≤ tokens ↔ n < 10 ^ (4 * tokens) := by
  rw [← Nat.length_toDigits_le_iff (by decide) (by omega)]
  unfold width divCeil digits
  omega

theorem one_le_width (n : Nat) : 1 ≤ width n := by
  have hpos := List.length_pos_iff.mpr (digits_ne_nil n)
  unfold width divCeil
  omega

theorem width_mono {low high : Nat} (h : low ≤ high) : width low ≤ width high := by
  rw [width_le_iff (one_le_width high)]
  exact Nat.lt_of_le_of_lt h ((width_le_iff (one_le_width high)).mp (Nat.le_refl _))

theorem width_near {low high : Nat} (h : high ≤ low + 5) : width high ≤ width low + 1 := by
  rw [width_le_iff (by omega)]
  have hlow := (width_le_iff (one_le_width low)).mp (Nat.le_refl _)
  have hpow : 10 ^ (4 * (width low + 1)) = 10 ^ (4 * width low) * 10000 := by
    rw [Nat.mul_add, Nat.pow_add]
  omega

/-- Between blanks the number of used tokens counts by its width. -/
theorem estimate_renderMarkdown (bundle : ContextBundle) : ∃ calibrated conservative, ∀ used,
    estimateTokens (renderMarkdown { bundle with usedTokens := used }) =
      TokenCount.rounded (calibrated + width used) conservative := by
  obtain ⟨before, hbefore⟩ : ∃ before, renderBeforeUsed bundle = before ++ [' '] := by
    unfold renderBeforeUsed
    rw [show "Budget: ".toList = "Budget:".toList ++ [' '] by decide, ← List.append_assoc]
    exact ⟨_, rfl⟩
  obtain ⟨after, hafter⟩ : ∃ after, renderAfterUsed bundle = ' ' :: after := by
    unfold renderAfterUsed
    simp only [show " / ".toList = ' ' :: "/ ".toList by decide, List.cons_append]
    exact ⟨_, rfl⟩
  obtain ⟨calibrated, conservative, hword⟩ := estimateTokens_word before after
  refine ⟨calibrated, conservative, fun used => ?_⟩
  rw [width, ← hword (digits used) (digits_ne_nil used) fun _ => tokenClass_of_mem_digits, ← hbefore,
    ← hafter]
  rfl

/-! ## The rounds -/

/-- What one round makes of the number. -/
def estimateWith (bundle : ContextBundle) (used : Nat) : Nat :=
  estimateTokens (renderMarkdown { bundle with usedTokens := used })

theorem estimateWith_usedTokens (bundle : ContextBundle) (used : Nat) :
    estimateWith { bundle with usedTokens := used } = estimateWith bundle := rfl

theorem settleUsed_eq (rounds : Nat) (bundle : ContextBundle) :
    ∃ used, settleUsed rounds bundle = { bundle with usedTokens := used } := by
  induction rounds generalizing bundle with
  | zero => exact ⟨bundle.usedTokens, rfl⟩
  | succ rounds ih =>
    unfold settleUsed
    dsimp only
    split
    · exact ⟨bundle.usedTokens, rfl⟩
    · exact ih _

/-- When so many rounds lead to a number that counts its own text, the rounds find one. -/
theorem settleUsed_fixed {rounds : Nat} {bundle : ContextBundle}
    (h : estimateWith bundle ((estimateWith bundle)^[rounds] bundle.usedTokens) =
      (estimateWith bundle)^[rounds] bundle.usedTokens) :
    (settleUsed rounds bundle).usedTokens =
      estimateTokens (renderMarkdown (settleUsed rounds bundle)) := by
  induction rounds generalizing bundle with
  | zero => exact h.symm
  | succ rounds ih =>
    unfold settleUsed
    dsimp only
    split
    · next heq => exact heq.symm
    · apply ih
      rw [Function.iterate_succ_apply] at h
      rw [estimateWith_usedTokens]
      exact h

theorem width_le_five {n : Nat} (h : n ≤ 2 ^ 64 - 1) : width n ≤ 5 := by
  rw [width_le_iff (by decide)]
  omega

/-- Four rounds are enough for any number of tokens that a machine can hold. -/
theorem finalizeBundleMetrics_used (bundle : ContextBundle) :
    (finalizeBundleMetrics bundle).usedTokens =
      estimateTokens (renderMarkdown (finalizeBundleMetrics bundle)) := by
  unfold finalizeBundleMetrics
  apply settleUsed_fixed
  generalize { bundle with coverage := coverageOf bundle.items } = counted
  obtain ⟨calibrated, conservative, hestimate⟩ := estimate_renderMarkdown counted
  let cost (w : Nat) : Nat := TokenCount.rounded (calibrated + w) conservative
  have hround : ∀ used, estimateWith counted used = cost (width used) := hestimate
  have hbound : ∀ w, cost w ≤ 2 ^ 64 - 1 := fun w => TokenCount.rounded_le _ _
  have hcost : ∀ w, cost w ≤ cost (w + 1) ∧ cost (w + 1) ≤ cost w + 1 := by
    intro w
    exact ⟨TokenCount.rounded_mono (by omega) _, TokenCount.rounded_succ_le _ _⟩
  show estimateWith counted (estimateWith counted (estimateWith counted (estimateWith counted
    (estimateWith counted counted.usedTokens)))) = estimateWith counted (estimateWith counted
      (estimateWith counted (estimateWith counted counted.usedTokens)))
  simp only [hround]
  apply cost_settles _ (fun _ _ => width_mono) (fun _ _ => width_near) hcost hbound (hbound _) rfl rfl
  exact fun u hu => ⟨one_le_width u, width_le_five hu⟩

theorem finalizeBundleMetrics_eq (bundle : ContextBundle) : ∃ used,
    finalizeBundleMetrics bundle =
      { bundle with coverage := coverageOf bundle.items, usedTokens := used } :=
  settleUsed_eq 4 _

end ContextBundle

end Ivygrep.Native
