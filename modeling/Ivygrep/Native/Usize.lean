import Mathlib.Algebra.Group.Nat.Defs

/-!
# Machine integers

The operations on `usize`, which is `u64` here, that differ from those of natural numbers.
-/

namespace Ivygrep.Native

/-- `usize::MAX` on a 64-bit target. -/
def usizeMax : Nat := 2 ^ 64 - 1

/-- `+` on `usize`. -/
def checkedAdd (left right : Nat) : Option Nat :=
  if left + right ≤ usizeMax then some (left + right) else none

/-- `-` on `usize`. -/
def checkedSub (left right : Nat) : Option Nat :=
  if right ≤ left then some (left - right) else none

/-- `AtomicUsize::fetch_sub`, which wraps around. -/
def fetchSub (left right : Nat) : Nat := (left + 2 ^ 64 - right) % 2 ^ 64

/-- `u64::saturating_add`. -/
def saturatingAdd (left right : Nat) : Nat := min (left + right) (2 ^ 64 - 1)

/-- `usize::saturating_mul`. -/
def saturatingMul (left right : Nat) : Nat := min (left * right) (2 ^ 64 - 1)

/-- `usize::div_ceil`. -/
def divCeil (left right : Nat) : Nat := (left + right - 1) / right

/-- `Ord::clamp`. -/
def clamp (value low high : Nat) : Nat := max low (min value high)

end Ivygrep.Native
