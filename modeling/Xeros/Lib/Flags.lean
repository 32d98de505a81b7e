import Mathlib.Tactic.Common
/-!
# Flags in a word

A flag is a mask: it is tested with `w &&& f`, set with `w ||| f` and cleared
with `w &&& ~~~f`. Setting and clearing leaves the flags alone that share no
bit with it.
-/

namespace Flags

variable {n : Nat} {f g : BitVec n}

theorem set_self (w f : BitVec n) : (w ||| f) &&& f = f := by
  ext i hi
  simp only [BitVec.getElem_and, BitVec.getElem_or]
  cases w[i] <;> cases f[i] <;> rfl

theorem clear_self (w f : BitVec n) : (w &&& ~~~f) &&& f = 0 := by
  rw [BitVec.and_assoc, BitVec.not_and_self]
  exact BitVec.and_zero

theorem set_other (w : BitVec n) (h : f &&& g = 0) : (w ||| f) &&& g = w &&& g := by
  rw [BitVec.and_or_distrib_right, h]
  exact BitVec.or_zero

theorem clear_other (w : BitVec n) (h : f &&& g = 0) : (w &&& ~~~f) &&& g = w &&& g := by
  ext i hi
  have hfg : (f[i] && g[i]) = false := by
    rw [← BitVec.getElem_and, h]
    exact BitVec.getElem_zero hi
  simp only [BitVec.getElem_and, BitVec.getElem_not]
  revert hfg
  cases w[i] <;> cases f[i] <;> cases g[i] <;> simp

end Flags
