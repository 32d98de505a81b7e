import Xeros.Model.Signal
/-!
# Signal masks

`pending_sig`, `allowed_sig` and `hi_sig` are sets of signal numbers. This
module says what the arithmetic on them does to the sets.
-/

namespace Xeros

/-- Signal `i` is in the set `w`. -/
abbrev Has (w : Word) (i : Fin NUM_SIGNAL) : Prop := w.getLsbD i = true

variable {x y : Word} {n b : Nat} {i : Fin NUM_SIGNAL}

/-! ## Single signals -/

theorem has_sig_int (sig i : Fin NUM_SIGNAL) : Has (SIG_INT sig) i ↔ i = sig := by
  revert sig i
  decide +kernel

theorem has_set (x : Word) (sig i : Fin NUM_SIGNAL) : Has (x ||| SIG_INT sig) i ↔ Has x i ∨ i = sig := by
  rw [Has, BitVec.getLsbD_or, Bool.or_eq_true, ← has_sig_int sig i]

theorem has_clear (x : Word) (sig i : Fin NUM_SIGNAL) : Has (x &&& ~~~SIG_INT sig) i ↔ Has x i ∧ i ≠ sig := by
  have hi : (i : Nat) < 32 := i.isLt
  rw [Has, BitVec.getLsbD_and, Bool.and_eq_true, BitVec.getLsbD_not, ne_eq, ← has_sig_int sig i]
  simp [hi]

/-- `~sig_int - (sig_int - 1)` is the set of the signals above. -/
theorem has_above (sig i : Fin NUM_SIGNAL) : Has (~~~SIG_INT sig - (SIG_INT sig - 1)) i ↔ sig < i := by
  revert sig i
  decide +kernel

theorem has_all (i : Fin NUM_SIGNAL) : Has 0xFFFFFFFF i := by
  revert i
  decide +kernel

/-- Two sets meet when their conjunction is not 0. -/
theorem meet_ne_zero (x y : Word) : x &&& y ≠ 0 ↔ ∃ i : Fin NUM_SIGNAL, Has x i ∧ Has y i := by
  constructor
  · intro h
    by_contra hno
    apply h
    apply BitVec.eq_of_getLsbD_eq
    intro j hj
    rw [BitVec.getLsbD_and]
    have hj' : ¬(Has x ⟨j, hj⟩ ∧ Has y ⟨j, hj⟩) := fun hh => hno ⟨⟨j, hj⟩, hh⟩
    simp only [Has, not_and, Bool.not_eq_true] at hj'
    cases hx : x.getLsbD j with
    | false => simp
    | true => simp [hj' hx]
  · rintro ⟨i, hx, hy⟩ h
    have hi := congrArg (fun w : Word => w.getLsbD i) h
    simp only [BitVec.getLsbD_and] at hi
    rw [hx, hy] at hi
    simp at hi

/-! ## The most significant bit -/

/-- One step of the search: the value is moved up by `b` bits if it is at most `t`. -/
def shiftUp (t : Word) (b : Nat) (s : Nat × Word) : Nat × Word := if s.2 ≤ t then (s.1 + b, s.2 <<< b) else (s.1, s.2)

/-- Before the step the top bit is among the upper `2 * b` bits, and after it
among the upper `b`. -/
theorem shiftUp_spec {t : Word} {s : Nat × Word} (ht : t.toNat + 1 = 2 ^ (32 - b)) (hb : b ≤ 16)
    (h : s.2.toNat = x.toNat * 2 ^ s.1) (hlow : 2 ^ (32 - 2 * b) ≤ s.2.toNat) :
    (shiftUp t b s).2.toNat = x.toNat * 2 ^ (shiftUp t b s).1 ∧ 2 ^ (32 - b) ≤ (shiftUp t b s).2.toNat := by
  by_cases hy : s.2 ≤ t
  · have hle : s.2.toNat ≤ t.toNat := hy
    have hpow : 2 ^ (32 - b) * 2 ^ b = 2 ^ 32 := by rw [← Nat.pow_add]; congr 1; omega
    have hpow' : 2 ^ (32 - 2 * b) * 2 ^ b = 2 ^ (32 - b) := by rw [← Nat.pow_add]; congr 1; omega
    have hlt : s.2.toNat * 2 ^ b < 2 ^ 32 := by
      rw [← hpow]
      exact Nat.mul_lt_mul_of_pos_right (by omega) (Nat.two_pow_pos b)
    have hshift : (s.2 <<< b).toNat = s.2.toNat * 2 ^ b := by
      rw [BitVec.toNat_shiftLeft, Nat.shiftLeft_eq, Nat.mod_eq_of_lt hlt]
    rw [shiftUp, if_pos hy, hshift]
    refine ⟨by rw [h, Nat.mul_assoc, ← Nat.pow_add], ?_⟩
    rw [← hpow']
    exact Nat.mul_le_mul_right _ hlow
  · have hlt : t.toNat < s.2.toNat := Nat.lt_of_not_le hy
    rw [shiftUp, if_neg hy]
    refine ⟨h, ?_⟩
    change 2 ^ (32 - b) ≤ s.2.toNat
    omega

/-- Moved up by `msb_1_pos` bits, a set has its top bit in the first place. -/
theorem msb_1_pos_spec (hx : x ≠ 0) : 2 ^ 31 ≤ x.toNat * 2 ^ msb_1_pos x ∧ x.toNat * 2 ^ msb_1_pos x < 2 ^ 32 := by
  have h0 : 2 ^ (32 - 2 * 16) ≤ x.toNat := by
    have : x.toNat ≠ 0 := fun h => hx (BitVec.eq_of_toNat_eq h)
    omega
  set s1 := shiftUp 0x0000FFFF 16 (0, x) with hs1
  set s2 := shiftUp 0x00FFFFFF 8 s1 with hs2
  set s3 := shiftUp 0x0FFFFFFF 4 s2 with hs3
  set s4 := shiftUp 0x3FFFFFFF 2 s3 with hs4
  set s5 := shiftUp 0x7FFFFFFF 1 s4 with hs5
  have hn : msb_1_pos x = s5.1 := by
    have hlast : s5.1 = if s4.2 ≤ 0x7FFFFFFF then s4.1 + 1 else s4.1 := by
      rw [hs5, shiftUp]
      split <;> rfl
    rw [hlast, msb_1_pos, if_neg hx]
    rfl
  obtain ⟨e1, l1⟩ := shiftUp_spec (x := x) (s := (0, x)) (t := 0x0000FFFF) (b := 16) rfl (by omega) (by simp) h0
  obtain ⟨e2, l2⟩ := shiftUp_spec (x := x) (s := s1) (t := 0x00FFFFFF) (b := 8) rfl (by omega) e1 l1
  obtain ⟨e3, l3⟩ := shiftUp_spec (x := x) (s := s2) (t := 0x0FFFFFFF) (b := 4) rfl (by omega) e2 l2
  obtain ⟨e4, l4⟩ := shiftUp_spec (x := x) (s := s3) (t := 0x3FFFFFFF) (b := 2) rfl (by omega) e3 l3
  obtain ⟨e5, l5⟩ := shiftUp_spec (x := x) (s := s4) (t := 0x7FFFFFFF) (b := 1) rfl (by omega) e4 l4
  rw [hn, ← e5]
  exact ⟨l5, s5.2.isLt⟩

/-- `deliver_signal` picks the greatest pending signal. -/
theorem sig_to_deliver_spec (hx : x ≠ 0) :
    Has x (sig_to_deliver x) ∧ ∀ i : Fin NUM_SIGNAL, Has x i → i ≤ sig_to_deliver x := by
  obtain ⟨hlow, hhigh⟩ := msb_1_pos_spec hx
  have hx0 : x.toNat ≠ 0 := fun h => hx (BitVec.eq_of_toNat_eq h)
  set n := msb_1_pos x with hn
  have hn32 : n < 32 := by
    by_contra hge
    have h1 : 2 ^ 32 ≤ 2 ^ n := Nat.pow_le_pow_right (by omega) (by omega)
    have h2 : 1 * 2 ^ n ≤ x.toNat * 2 ^ n := Nat.mul_le_mul_right _ (by omega)
    omega
  have hsig : ((sig_to_deliver x : Fin NUM_SIGNAL) : Nat) = 31 - n := by
    rw [sig_to_deliver, ← hn]
    simp only [Fin.ofNat, NUM_SIGNAL]
    omega
  have hpow : 2 ^ (31 - n) * 2 ^ n = 2 ^ 31 := by rw [← Nat.pow_add]; congr 1; omega
  have hpow' : 2 ^ (31 - n + 1) * 2 ^ n = 2 ^ 32 := by rw [← Nat.pow_add]; congr 1; omega
  have hge : 2 ^ (31 - n) ≤ x.toNat := by
    rw [← hpow] at hlow
    exact Nat.le_of_mul_le_mul_right hlow (Nat.two_pow_pos n)
  have hlt : x.toNat < 2 ^ (31 - n + 1) := by
    rw [← hpow'] at hhigh
    exact Nat.lt_of_mul_lt_mul_right hhigh
  constructor
  · rw [Has, hsig, BitVec.getLsbD, Nat.testBit_of_two_pow_le_and_two_pow_add_one_gt hge hlt]
  · intro i hi
    rw [Fin.le_def, hsig]
    by_contra hgt
    have hsmall : x.toNat < 2 ^ (i : Nat) :=
      Nat.lt_of_lt_of_le hlt (Nat.pow_le_pow_right (by omega) (by omega))
    rw [Has, BitVec.getLsbD, Nat.testBit_lt_two_pow hsmall] at hi
    cases hi

end Xeros
