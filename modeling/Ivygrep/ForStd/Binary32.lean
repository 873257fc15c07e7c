import Mathlib.Order.MinMax
import Mathlib.Order.Basic
import Mathlib.Data.Int.Order.Basic
import Mathlib.Algebra.Ring.Nat
import Mathlib.Algebra.Ring.Int.Defs

/-!
# Binary32 by its bits

Floats of 32 bits in their total order, and the product with a constant between one half and one,
rounded to the nearest with ties to even.

## Key results

- `scale_le`: such a product does not raise a number
- `scale_lt`: where it lowers one
-/

namespace ForStd

structure Binary32 where
  bits : UInt32
deriving DecidableEq

namespace Binary32

/-- The place in the total order: a negative number comes before one of a lower magnitude. -/
def totalKey (x : Binary32) : Int :=
  if x.bits.toNat < 2 ^ 31 then x.bits.toNat else 2 ^ 31 - 1 - x.bits.toNat

theorem totalKey_injective : Function.Injective totalKey := by
  rintro ⟨x⟩ ⟨y⟩ h
  have hx := x.toNat_lt
  have hy := y.toNat_lt
  have hbits : x.toNat = y.toNat := by
    simp only [totalKey] at h
    split at h <;> split at h <;> omega
  rw [UInt32.toNat_inj.mp hbits]

instance : LinearOrder Binary32 := LinearOrder.lift' totalKey totalKey_injective

theorem le_iff {x y : Binary32} : x ≤ y ↔ x.totalKey ≤ y.totalKey := Iff.rfl

/-- The bits of infinity. Patterns above it are not numbers. -/
def infinityBits : Nat := 0x7f800000

def isNaN (x : Binary32) : Bool := decide (infinityBits < x.bits.toNat % 2 ^ 31)

def isZero (x : Binary32) : Bool := x.bits.toNat % 2 ^ 31 == 0

/-- The comparison `>=`, which no NaN passes. -/
def ge (x y : Binary32) : Bool :=
  !x.isNaN && !y.isNaN && (decide (y ≤ x) || x.isZero && y.isZero)

/-- The minimum, which ignores a NaN. -/
def minNum (x y : Binary32) : Binary32 := if x.isNaN then y else if y.isNaN then x else min x y

/-- The largest finite number. -/
def maxFinite : Binary32 := ⟨0x7f7fffff⟩

/-! ## Products with a constant -/

/-- A quotient, rounded to the nearest, ties to even. -/
def roundDiv (a d : Nat) : Nat :=
  if d < 2 * (a % d) ∨ 2 * (a % d) = d ∧ a / d % 2 = 1 then a / d + 1 else a / d

/-- The significand of a finite magnitude. -/
def significand (magnitude : Nat) : Nat :=
  if magnitude < 2 ^ 23 then magnitude else 2 ^ 23 + magnitude % 2 ^ 23

/-- The magnitude of the product with `factor / 2 ^ 24`. Where the product of the significands is
    too short, it takes one more bit from below, unless the exponent is the least one. A significand
    that is rounded up to the next power of two carries into the exponent. -/
def scaleMagnitude (factor magnitude : Nat) : Nat :=
  let product := significand magnitude * factor
  if infinityBits ≤ magnitude then magnitude
  else if product < 2 ^ 47 ∧ 2 ^ 24 ≤ magnitude then
    (magnitude / 2 ^ 23 - 2) * 2 ^ 23 + roundDiv product (2 ^ 23)
  else if magnitude < 2 ^ 24 then roundDiv product (2 ^ 24)
  else (magnitude / 2 ^ 23 - 1) * 2 ^ 23 + roundDiv product (2 ^ 24)

/-- The product with `factor / 2 ^ 24`, of the same sign. -/
def scale (factor : Nat) (x : Binary32) : Binary32 :=
  let magnitude := x.bits.toNat % 2 ^ 31
  ⟨UInt32.ofNat (x.bits.toNat - magnitude + scaleMagnitude factor magnitude)⟩

theorem roundDiv_le {a q d : Nat} (hd : 0 < d) (h : a ≤ q * d) : roundDiv a d ≤ q := by
  have hdiv : a / d ≤ q := Nat.div_le_of_le_mul (by rwa [Nat.mul_comm])
  unfold roundDiv
  split
  · next hup =>
    have hne : a / d ≠ q := by
      intro heq
      have hmod := Nat.div_add_mod a d
      rw [heq, Nat.mul_comm d q] at hmod
      omega
    omega
  · exact hdiv

theorem roundDiv_lt {a q d : Nat} (h : 2 * a + d < 2 * (q * d)) : roundDiv a d < q := by
  have hmod := Nat.div_add_mod a d
  have hbound : ∀ r, q ≤ r → q * d ≤ d * r := fun r hr => by
    rw [Nat.mul_comm d r]
    exact Nat.mul_le_mul_right d hr
  unfold roundDiv
  by_contra hle
  split at hle
  · have hq := hbound (a / d + 1) (by omega)
    rw [Nat.mul_add, Nat.mul_one] at hq
    omega
  · have hq := hbound (a / d) (by omega)
    omega

/-- The significand of a number that is subnormal or has the least exponent is its magnitude. -/
theorem significand_of_lt {magnitude : Nat} (h : magnitude < 2 ^ 24) :
    significand magnitude = magnitude := by
  unfold significand
  split <;> omega

theorem scaleMagnitude_le {factor : Nat} (magnitude : Nat) (hfactor : factor ≤ 2 ^ 24) :
    scaleMagnitude factor magnitude ≤ magnitude := by
  have hle : significand magnitude * factor ≤ significand magnitude * 2 ^ 24 :=
    Nat.mul_le_mul_left _ hfactor
  unfold scaleMagnitude
  simp only
  split
  · exact Nat.le_refl _
  · split
    · next hshort =>
      have hround : roundDiv (significand magnitude * factor) (2 ^ 23) ≤ 2 ^ 24 :=
        roundDiv_le (Nat.two_pow_pos _) (Nat.le_of_lt hshort.1)
      omega
    · split
      · next hsmall =>
        rw [significand_of_lt hsmall] at hle ⊢
        exact roundDiv_le (Nat.two_pow_pos _) hle
      · next hlarge =>
        have hround := roundDiv_le (Nat.two_pow_pos _) hle
        rw [significand, if_neg (by omega)] at hround ⊢
        omega

/-- A product is lower where what is taken off is more than the half that rounding may add. -/
theorem scaleMagnitude_lt {factor magnitude : Nat} (hfinite : magnitude < infinityBits)
    (hoff : significand magnitude * factor + 2 ^ 23 < significand magnitude * 2 ^ 24) :
    scaleMagnitude factor magnitude < magnitude := by
  unfold scaleMagnitude
  simp only
  split
  · omega
  · split
    · next hshort =>
      -- At the least significand of an exponent, the product is short of the one below by enough.
      have hsignificand : significand magnitude = 2 ^ 23 + magnitude % 2 ^ 23 := by
        rw [significand, if_neg (by omega)]
      rcases Nat.eq_zero_or_pos (magnitude % 2 ^ 23) with hzero | hpos
      · have hround : roundDiv (significand magnitude * factor) (2 ^ 23) < 2 ^ 24 :=
          roundDiv_lt (by omega)
        omega
      · have hround : roundDiv (significand magnitude * factor) (2 ^ 23) ≤ 2 ^ 24 :=
          roundDiv_le (Nat.two_pow_pos _) (Nat.le_of_lt hshort.1)
        omega
    · split
      · next hsmall =>
        rw [significand_of_lt hsmall] at hoff ⊢
        exact roundDiv_lt (by omega)
      · next hlarge =>
        have hround : roundDiv (significand magnitude * factor) (2 ^ 24) < significand magnitude :=
          roundDiv_lt (by omega)
        rw [significand, if_neg (by omega)] at hround ⊢
        omega

/-! ## Numbers that are not negative -/

/-- Zero, a positive number or infinity. -/
def NonNeg (x : Binary32) : Prop := x.bits.toNat ≤ infinityBits

theorem NonNeg.totalKey_eq {x : Binary32} (h : x.NonNeg) : x.totalKey = x.bits.toNat := by
  unfold NonNeg infinityBits at h
  rw [totalKey, if_pos (by omega)]

theorem NonNeg.isNaN_eq {x : Binary32} (h : x.NonNeg) : x.isNaN = false := by
  unfold NonNeg at h
  rw [isNaN, decide_eq_false_iff_not]
  unfold infinityBits at h ⊢
  omega

theorem NonNeg.minNum_eq {x y : Binary32} (hx : x.NonNeg) (hy : y.NonNeg) :
    minNum x y = min x y := by
  simp [minNum, hx.isNaN_eq, hy.isNaN_eq]

theorem NonNeg.minNum {x y : Binary32} (hx : x.NonNeg) (hy : y.NonNeg) : (minNum x y).NonNeg := by
  rw [hx.minNum_eq hy]
  rcases min_choice x y with h | h <;> rwa [h]

theorem NonNeg.scale_bits {x : Binary32} (h : x.NonNeg) {factor : Nat} (hfactor : factor ≤ 2 ^ 24) :
    (scale factor x).bits.toNat = scaleMagnitude factor x.bits.toNat := by
  unfold NonNeg infinityBits at h
  have hle := scaleMagnitude_le x.bits.toNat hfactor
  have hmagnitude : x.bits.toNat % 2 ^ 31 = x.bits.toNat := Nat.mod_eq_of_lt (by omega)
  simp only [scale, hmagnitude, Nat.sub_self, Nat.zero_add]
  exact UInt32.toNat_ofNat_of_lt' (by simp [UInt32.size]; omega)

theorem NonNeg.scale {x : Binary32} (h : x.NonNeg) {factor : Nat} (hfactor : factor ≤ 2 ^ 24) :
    (scale factor x).NonNeg := by
  have hle := scaleMagnitude_le x.bits.toNat hfactor
  unfold NonNeg at h ⊢
  rw [NonNeg.scale_bits h hfactor]
  omega

theorem scale_le {x : Binary32} (h : x.NonNeg) {factor : Nat} (hfactor : factor ≤ 2 ^ 24) :
    scale factor x ≤ x := by
  rw [le_iff, h.totalKey_eq, (h.scale hfactor).totalKey_eq, h.scale_bits hfactor]
  exact_mod_cast scaleMagnitude_le x.bits.toNat hfactor

theorem scale_lt {x : Binary32} {factor : Nat} (hfactor : factor ≤ 2 ^ 24)
    (hfinite : x.bits.toNat < infinityBits)
    (hoff : significand x.bits.toNat * factor + 2 ^ 23 < significand x.bits.toNat * 2 ^ 24) :
    scale factor x < x := by
  have h : x.NonNeg := Nat.le_of_lt hfinite
  rw [lt_iff_not_ge, le_iff, h.totalKey_eq, (h.scale hfactor).totalKey_eq, h.scale_bits hfactor]
  have hlt := scaleMagnitude_lt hfinite hoff
  omega

end Binary32

end ForStd
