import Xeros.Model.Doprnt
import Xeros.Lib.Numerals
import Xeros.Lib.Signed
/-!
# Conversions of numbers

Every conversion of `doprnt.c` writes the numeral of its argument: the decimal
ones by division, although a word does not fit into a `long`, the others by
arithmetic shifts of a word that may be negative (`unsigned_numeral`,
`prtl8_numeral`, `prtl16_numeral`, `prtl2_numeral`).
-/

namespace Xeros

open Numerals

variable {num : Word} {b k w : Nat} {digit : Word → Byte} {shift : Word → Word}

def digitByte (d : Nat) : Byte := hex_digits.getD d 0

/-- The bytes of the numeral of `n`. -/
def numeralBytes (b n : Nat) : List Byte := (numeral b n).map digitByte

theorem digitByte_zero {d : Nat} (h : d < 16) : digitByte d = ascii '0' ↔ d = 0 := by
  have hall : ∀ d : Fin 16, digitByte d = ascii '0' ↔ d = 0 := by decide
  have hd := hall ⟨d, h⟩
  simpa [Fin.ext_iff] using hd

theorem digitByte_ten {d : Nat} (h : d < 10) : digitByte d = BitVec.ofNat 8 (d + 48) := by
  have hall : ∀ d : Fin 10, digitByte d = BitVec.ofNat 8 (d + 48) := by decide
  exact hall ⟨d, h⟩

/-! ## The digits -/

/-- The zeros are skipped as in a numeral. -/
theorem prt_out_digits {ds : List Nat} (h : ∀ d ∈ ds, d < 16) :
    prt_out (ds.map digitByte) = (strip ds).map digitByte := by
  have hdrop : ∀ l : List Nat, (∀ d ∈ l, d < 16) →
      (l.map digitByte).dropWhile (fun c => c = ascii '0') = (l.dropWhile fun d => d = 0).map digitByte := by
    intro l hl
    induction l with
    | nil => rfl
    | cons d l ih =>
      have hd := digitByte_zero (hl d List.mem_cons_self)
      by_cases h0 : d = 0
      · rw [List.map_cons, List.dropWhile_cons_of_pos (by simpa using hd.2 h0),
          List.dropWhile_cons_of_pos (by simpa using h0)]
        exact ih fun x hx => hl x (List.mem_cons_of_mem _ hx)
      · rw [List.map_cons, List.dropWhile_cons_of_neg (by simpa using mt hd.1 h0),
          List.dropWhile_cons_of_neg (by simpa using h0), List.map_cons]
  unfold prt_out strip
  simp only []
  rw [← List.map_reverse, hdrop _ fun d hd => h d (List.mem_reverse.1 hd), List.isEmpty_map]
  split
  · exact List.map_take.symm
  · rfl

/-- Digits of a number that is divided at every step. -/
theorem prt_temp_div (P : Word → Prop) (hdigit : ∀ num, P num → digit num = digitByte (num.toNat % b))
    (hshift : ∀ num, P num → P (shift num) ∧ (shift num).toNat = num.toNat / b) (h : P num) :
    prt_temp digit shift k num = (lows b k num.toNat).map digitByte := by
  induction k generalizing num with
  | zero => rfl
  | succ k ih =>
    obtain ⟨h', e⟩ := hshift num h
    rw [prt_temp, hdigit num h, ih h', e, lows, List.map_cons]

/-- Digits of a number that is shifted at every step. -/
theorem prt_temp_shift (digit : Word → Byte) (w k : Nat) (num : Word) :
    prt_temp digit (fun num => num.sshiftRight w) k num = (List.range k).map fun i => digit (num.sshiftRight (w * i)) := by
  induction k generalizing num with
  | zero => rfl
  | succ k ih =>
    rw [prt_temp, ih, List.range_succ_eq_map, List.map_cons, List.map_map, Nat.mul_zero, BitVec.sshiftRight_zero]
    apply congrArg (List.cons _)
    apply List.map_congr_left
    intro i _
    change digit ((num.sshiftRight w).sshiftRight (w * i)) = digit (num.sshiftRight (w * (i + 1)))
    rw [← BitVec.sshiftRight_add, Nat.mul_succ, Nat.add_comm w]

/-- The sign does not reach the low bits of an arithmetic shift. -/
theorem sshiftRight_low (num : Word) {s : Nat} (h : s + w ≤ 32) :
    (num.sshiftRight s &&& BitVec.ofNat 32 (2 ^ w - 1)).toNat = num.toNat / 2 ^ s % 2 ^ w := by
  have hmask : ∀ i, (BitVec.ofNat 32 (2 ^ w - 1)).getLsbD i = decide (i < w) := by
    intro i
    rw [BitVec.getLsbD_ofNat, Nat.testBit_two_pow_sub_one]
    by_cases hi : i < w
    · have hi' : i < 32 := by omega
      simp [hi, hi']
    · simp [hi]
  have hsame : num.sshiftRight s &&& BitVec.ofNat 32 (2 ^ w - 1) = num >>> s &&& BitVec.ofNat 32 (2 ^ w - 1) := by
    apply BitVec.eq_of_getLsbD_eq
    intro i hi
    rw [BitVec.getLsbD_and, BitVec.getLsbD_and, hmask, BitVec.getLsbD_sshiftRight, BitVec.getLsbD_ushiftRight]
    by_cases hiw : i < w
    · have h1 : s + i < 32 := by omega
      have h2 : ¬32 ≤ i := by omega
      simp [h1, h2]
    · simp [hiw]
  have hlt : 2 ^ w - 1 < 2 ^ 32 := by
    have hp : 2 ^ w ≤ 2 ^ 32 := Nat.pow_le_pow_right (by omega) (by omega)
    have h0 : 0 < 2 ^ w := Nat.pow_pos (by omega)
    omega
  rw [hsame, BitVec.toNat_and, BitVec.toNat_ushiftRight, BitVec.toNat_ofNat, Nat.mod_eq_of_lt hlt,
    Nat.and_two_pow_sub_one_eq_mod, Nat.shiftRight_eq_div_pow]

/-! ## Base 10 -/

theorem prtl10_numeral (h : num.toNat < 2 ^ 31) : prtl10 num = numeralBytes 10 num.toNat := by
  have htemp : prt_temp (fun num => (num.srem 10 + 48).setWidth 8) (fun num => num.sdiv 10) 10 num =
      (lows 10 10 num.toNat).map digitByte := by
    refine prt_temp_div (fun num => num.toNat < 2 ^ 31) ?_ ?_ h
    · intro num hn
      have hmod : (num.srem 10).toNat = num.toNat % 10 := Signed.toNat_srem (by omega) (by decide)
      have h48 : (48 : Word).toNat = 48 := rfl
      rw [digitByte_ten (Nat.mod_lt _ (by omega))]
      apply BitVec.eq_of_toNat_eq
      rw [BitVec.toNat_setWidth, BitVec.toNat_add, hmod, h48, BitVec.toNat_ofNat]
      omega
    · intro num hn
      have hdiv : (num.sdiv 10).toNat = num.toNat / 10 := Signed.toNat_sdiv (by omega) (by decide)
      exact ⟨by omega, hdiv⟩
  unfold prtl10
  rw [htemp, prt_out_digits fun d hd => Nat.lt_trans (mem_lows (by omega) hd) (by omega),
    strip_lows (by omega) (by omega) (by omega)]
  rfl

/-- Raising the first digit of a number with ten digits. -/
theorem numeral_raise {n c : Nat} (h1 : 1000000000 ≤ n) (h2 : n + c * 1000000000 < 10000000000) :
    (numeralBytes 10 n).modifyHead (fun x => x + BitVec.ofNat 8 c) = numeralBytes 10 (n + c * 1000000000) := by
  obtain ⟨q, r, hr, rfl⟩ : ∃ q r, r < 10 ^ 9 ∧ n = q * 10 ^ 9 + r :=
    ⟨n / 10 ^ 9, n % 10 ^ 9, Nat.mod_lt _ (by omega), (Nat.div_add_mod' ..).symm⟩
  have hsum : q * 10 ^ 9 + r + c * 1000000000 = (q + c) * 10 ^ 9 + r := by omega
  have hq : q ≠ 0 ∧ q + c < 10 := by omega
  unfold numeralBytes
  rw [hsum, numeral_high hq.1 (by omega) hr, numeral_high (by omega) hq.2 hr, List.map_cons, List.map_cons,
    List.modifyHead_cons, digitByte_ten (by omega), digitByte_ten hq.2]
  congr 1
  apply BitVec.eq_of_toNat_eq
  rw [BitVec.toNat_add, BitVec.toNat_ofNat, BitVec.toNat_ofNat, BitVec.toNat_ofNat]
  omega

theorem sub_billion (h : 2 ^ 31 ≤ num.toNat) : (num - 1000000000).toNat = num.toNat - 1000000000 := by
  have h9 : (1000000000 : Word).toNat = 1000000000 := by simp
  have hle : (1000000000 : Word) ≤ num := by
    rw [BitVec.le_def, h9]
    omega
  rw [BitVec.toNat_sub_of_le hle, h9]

/-- The loop takes 10^9 off as often as the word is too large for a `long`. -/
theorem digit1_loop_spec {n : Nat} {c : Byte} (h : num.toNat / 1000000000 < n) : ∃ j num',
    digit1_loop n num c = some (num', c + BitVec.ofNat 8 j) ∧ num'.toNat + j * 1000000000 = num.toNat ∧
      num'.toNat < 2 ^ 31 ∧ (j ≠ 0 → 1000000000 ≤ num'.toNat) := by
  induction n generalizing num c with
  | zero => omega
  | succ n ih =>
    unfold digit1_loop
    by_cases hneg : num.toInt < 0
    · have hbig : 2 ^ 31 ≤ num.toNat := by
        rw [BitVec.toInt_eq_toNat_cond] at hneg
        split at hneg
        · omega
        · omega
      have hsub := sub_billion hbig
      obtain ⟨j, num', hloop, hsum, hlt, hj⟩ := @ih (num - 1000000000) (c + 1) (by omega)
      rw [hsub] at hsum
      have hsum' : num'.toNat + (j + 1) * 1000000000 = num.toNat := by
        rw [Nat.succ_mul]
        generalize j * 1000000000 = c at hsum ⊢
        omega
      refine ⟨j + 1, num', ?_, hsum', hlt, ?_⟩
      · rw [if_pos hneg, hloop]
        have e : c + 1 + BitVec.ofNat 8 j = c + BitVec.ofNat 8 (j + 1) := by bv_omega
        rw [e]
      · intro _
        by_cases hj0 : j = 0
        · subst hj0
          omega
        · exact hj hj0
    · have hsmall : num.toNat < 2 ^ 31 := by
        rw [BitVec.toInt_eq_toNat_cond] at hneg
        split at hneg
        · omega
        · have hlt := num.isLt
          omega
      refine ⟨0, num, ?_, by omega, hsmall, by simp⟩
      rw [if_neg hneg]
      simp

/-- `%u` of every word is its decimal numeral. -/
theorem unsigned_numeral (num : Word) : unsigned num = some (numeralBytes 10 num.toNat) := by
  have hfuel : num.toNat / 1000000000 < DIGIT1_FUEL := Nat.lt_of_le_of_lt (Nat.div_le_self ..) num.isLt
  obtain ⟨j, num', hloop, hsum, hlt, hj⟩ := digit1_loop_spec (c := 0) hfuel
  have hzero : 0 + BitVec.ofNat 8 j = BitVec.ofNat 8 j := BitVec.zero_add _
  rw [hzero] at hloop
  unfold unsigned
  rw [hloop, Option.bind_eq_bind, Option.bind_some]
  simp only []
  rw [prtl10_numeral hlt, ← hsum]
  by_cases h0 : j = 0
  · subst h0
    rw [Nat.zero_mul, Nat.add_zero]
    cases numeralBytes 10 num'.toNat with
    | nil => rfl
    | cons c l => simp
  · have hnum := num.isLt
    rw [numeral_raise (hj h0) (by omega)]

/-! ## The other bases -/

theorem prtl16_numeral (num : Word) : prtl16 num = numeralBytes 16 num.toNat := by
  have htemp : prt_temp (fun num => hex_digits.getD (num &&& 0xF).toNat 0) (fun num => num.sshiftRight 4) 8 num =
      (lows 16 8 num.toNat).map digitByte := by
    rw [prt_temp_shift, lows_range, List.map_map]
    apply List.map_congr_left
    intro i hi
    have hi' := List.mem_range.1 hi
    have h := sshiftRight_low num (s := 4 * i) (w := 4) (by omega)
    have h16 : 2 ^ 4 = 16 := rfl
    change digitByte (num.sshiftRight (4 * i) &&& BitVec.ofNat 32 (2 ^ 4 - 1)).toNat = digitByte (num.toNat / 16 ^ i % 16)
    rw [h, Nat.pow_mul, h16]
  unfold prtl16
  have hlt : num.toNat < 16 ^ 8 := num.isLt
  rw [htemp, prt_out_digits fun d hd => mem_lows (by omega) hd, strip_lows (by omega) (by omega) hlt]
  rfl

theorem prtl2_numeral (num : Word) : prtl2 num = numeralBytes 2 num.toNat := by
  have hbit : ∀ num : Word, (if num.srem 2 = 0 then ascii '0' else ascii '1') = digitByte (num &&& 1).toNat := by
    intro num
    have hsrem : num.srem 2 = 0 ↔ num.toNat % 2 = 0 := by
      have hint : (num.srem 2).toInt = num.toInt.tmod 2 := BitVec.toInt_srem num 2
      have hzero : (0 : Word).toInt = 0 := rfl
      rw [← BitVec.toInt_inj, hint, hzero, ← Int.dvd_iff_tmod_eq_zero, BitVec.toInt_eq_toNat_cond]
      split
      · omega
      · omega
    have hand : (num &&& 1).toNat = num.toNat % 2 := by
      rw [BitVec.toNat_and]
      exact Nat.and_two_pow_sub_one_eq_mod num.toNat 1
    rw [hand]
    by_cases h0 : num.toNat % 2 = 0
    · rw [if_pos (hsrem.2 h0), h0]
      rfl
    · rw [if_neg (mt hsrem.1 h0), Nat.mod_two_ne_zero.1 h0]
      rfl
  have htemp : prt_temp (fun num => if num.srem 2 = 0 then ascii '0' else ascii '1') (fun num => num.sshiftRight 1) 32 num =
      (lows 2 32 num.toNat).map digitByte := by
    rw [prt_temp_shift, lows_range, List.map_map]
    apply List.map_congr_left
    intro i hi
    have hi' := List.mem_range.1 hi
    have h := sshiftRight_low num (s := 1 * i) (w := 1) (by omega)
    rw [hbit]
    change digitByte (num.sshiftRight (1 * i) &&& BitVec.ofNat 32 (2 ^ 1 - 1)).toNat = digitByte (num.toNat / 2 ^ i % 2)
    rw [h, Nat.one_mul, Nat.pow_one]
  unfold prtl2
  rw [htemp, prt_out_digits fun d hd => Nat.lt_trans (mem_lows (by omega) hd) (by omega),
    strip_lows (by omega) (by omega) num.isLt]
  rfl

theorem prtl8_numeral (num : Word) : prtl8 num = numeralBytes 8 num.toNat := by
  have hbyte : ∀ x : Word, ((x &&& 7) + 48).setWidth 8 = digitByte (x &&& 7).toNat := by
    intro x
    have hlt : (x &&& 7).toNat < 8 := by
      rw [BitVec.toNat_and]
      exact Nat.lt_of_le_of_lt Nat.and_le_right (by decide)
    rw [digitByte_ten (by omega)]
    apply BitVec.eq_of_toNat_eq
    have h48 : (48 : Word).toNat = 48 := rfl
    rw [BitVec.toNat_setWidth, BitVec.toNat_add, h48, BitVec.toNat_ofNat]
    omega
  -- the last digit has two bits, and the mask takes the sign off
  have hlast : ∀ d < 8, digitByte d &&& ascii '3' = digitByte (d % 4) := by decide
  have htemp : (prt_temp (fun num => ((num &&& 7) + 48).setWidth 8) (fun num => num.sshiftRight 3) 11 num).modify 10
      (fun c => c &&& ascii '3') = (lows 8 11 num.toNat).map digitByte := by
    have hdigit : ∀ i < 10, digitByte (num.sshiftRight (3 * i) &&& 7).toNat = digitByte (num.toNat / 8 ^ i % 8) := by
      intro i hi
      have h8 : 2 ^ 3 = 8 := rfl
      have h := sshiftRight_low num (s := 3 * i) (w := 3) (by omega)
      change digitByte (num.sshiftRight (3 * i) &&& BitVec.ofNat 32 (2 ^ 3 - 1)).toNat = _
      rw [h, Nat.pow_mul, h8]
    have hten : digitByte (num.sshiftRight (3 * 10) &&& 7).toNat &&& ascii '3' = digitByte (num.toNat / 8 ^ 10 % 8) := by
      have h := sshiftRight_low num (s := 30) (w := 2) (by omega)
      have hmask : (num.sshiftRight 30 &&& 7).toNat % 4 = (num.sshiftRight 30 &&& 3).toNat := by
        rw [BitVec.toNat_and, BitVec.toNat_and]
        exact (Nat.and_two_pow_sub_one_eq_mod _ 2).symm.trans (by rw [Nat.and_assoc]; rfl)
      have hlt : (num.sshiftRight 30 &&& 7).toNat < 8 := by
        rw [BitVec.toNat_and]
        exact Nat.lt_of_le_of_lt Nat.and_le_right (by decide)
      have h3 : (num.sshiftRight 30 &&& 3).toNat = num.toNat / 2 ^ 30 % 2 ^ 2 := h
      have h8 : 8 ^ 10 = 2 ^ 30 := rfl
      have hnum := num.isLt
      rw [hlast _ hlt, hmask, h3, h8]
      congr 1
      omega
    rw [prt_temp_shift, lows_range, List.map_map]
    simp only [hbyte]
    apply List.ext_getElem
    · simp
    · intro i h1 h2
      have hi : i < 11 := by simpa using h2
      rw [List.getElem_modify]
      simp only [List.getElem_map, List.getElem_range, Function.comp_apply]
      split
      · next h10 =>
        subst h10
        exact hten
      · next h10 => exact hdigit i (by omega)
  have hlt : num.toNat < 8 ^ 11 := Nat.lt_trans num.isLt (by decide)
  unfold prtl8
  rw [htemp, prt_out_digits fun d hd => Nat.lt_trans (mem_lows (by omega) hd) (by omega),
    strip_lows (by omega) (by omega) hlt]
  rfl

/-! ## Results -/

/-- A numeral fits into `string`, with its `'\0'`, when it has less than 20 digits. -/
theorem fits_iff {n : Nat} (hb : 1 < b) : (numeralBytes b n).length + 1 ≤ STRING_SIZE ↔ n < b ^ 19 := by
  rw [← length_numeral_le hb (by omega), numeralBytes, List.length_map]
  exact Nat.succ_le_succ_iff

/-- Every conversion writes the numeral of its argument, for every word; all of
them fit into `string` but the binary one, which does for words below 2^19. -/
theorem conversions_exact (num : Word) : unsigned num = some (numeralBytes 10 num.toNat) ∧
    prtl8 num = numeralBytes 8 num.toNat ∧ prtl16 num = numeralBytes 16 num.toNat ∧ prtl2 num = numeralBytes 2 num.toNat ∧
    (∀ b ∈ [8, 10, 16], (numeralBytes b num.toNat).length + 1 ≤ STRING_SIZE) ∧
    ((numeralBytes 2 num.toNat).length + 1 ≤ STRING_SIZE ↔ num.toNat < 2 ^ 19) := by
  refine ⟨unsigned_numeral num, prtl8_numeral num, prtl16_numeral num, prtl2_numeral num, ?_, fits_iff (by omega)⟩
  intro b hb
  have hpow : 1 < b ∧ 2 ^ 32 ≤ b ^ 19 := by
    revert b
    decide
  exact (fits_iff hpow.1).2 (Nat.lt_of_lt_of_le num.isLt hpow.2)

end Xeros
