import Mathlib.Algebra.Group.Nat.Defs
/-!
# Signed operations on words that are not negative

Division, remainder and shift of signed words are those of natural numbers
below half of the range.
-/

namespace Signed

variable {w : Nat} {x y : BitVec w}

theorem msb_eq_false (hx : 2 * x.toNat < 2 ^ w) : x.msb = false := BitVec.msb_eq_false_iff_two_mul_lt.2 hx

theorem toNat_sdiv (hx : 2 * x.toNat < 2 ^ w) (hy : 2 * y.toNat < 2 ^ w) : (x.sdiv y).toNat = x.toNat / y.toNat := by
  rw [BitVec.sdiv_eq, msb_eq_false hx, msb_eq_false hy]
  rfl

theorem toNat_srem (hx : 2 * x.toNat < 2 ^ w) (hy : 2 * y.toNat < 2 ^ w) : (x.srem y).toNat = x.toNat % y.toNat := by
  rw [BitVec.srem_eq, msb_eq_false hx, msb_eq_false hy]
  exact BitVec.toNat_umod

theorem toNat_sshiftRight (hx : 2 * x.toNat < 2 ^ w) (n : Nat) : (x.sshiftRight n).toNat = x.toNat / 2 ^ n := by
  rw [BitVec.sshiftRight_eq_of_msb_false (msb_eq_false hx), BitVec.toNat_ushiftRight, Nat.shiftRight_eq_div_pow]

end Signed
