import Mathlib.Data.Nat.Digits.Lemmas
/-!
# Numerals

How a number is written in a base, highest digit first (`numeral`). A program
that computes a fixed count of digits from the lowest one up and drops the
zeros in front writes the numeral (`strip_lows`); one that multiplies and adds
its way through the digits reads the number back (`value_numeral`).
-/

namespace Numerals

variable {b k n d : Nat}

/-- The digits of a number, and at least one. -/
def numeral (b n : Nat) : List Nat := if n = 0 then [0] else (Nat.digits b n).reverse

/-- The `k` lowest digits, from the lowest up. -/
def lows (b : Nat) : Nat → Nat → List Nat
  | 0, _ => []
  | k + 1, n => n % b :: lows b k (n / b)

/-- Digits without the zeros in front, but for one digit. -/
def strip (ds : List Nat) : List Nat :=
  if (ds.reverse.dropWhile fun d => d = 0).isEmpty then ds.take 1 else ds.reverse.dropWhile fun d => d = 0

/-- The number that digits read as, with `a` in front of them. -/
def value (b : Nat) (a : Nat) (ds : List Nat) : Nat := ds.foldl (fun a d => a * b + d) a

theorem digits_reverse_ne_nil (hn : n ≠ 0) : (Nat.digits b n).reverse ≠ [] :=
  List.reverse_ne_nil_iff.2 (Nat.digits_ne_nil_iff_ne_zero.2 hn)

theorem numeral_ne_nil (b n : Nat) : numeral b n ≠ [] := by
  unfold numeral
  split
  · simp
  · next hn => exact digits_reverse_ne_nil hn

theorem digit_lt (hb : 1 < b) (h : d ∈ numeral b n) : d < b := by
  unfold numeral at h
  split at h
  · rw [List.mem_singleton] at h
    omega
  · exact Nat.digits_lt_base hb (List.mem_reverse.1 h)

/-- A number other than 0 does not begin with a 0. -/
theorem head_ne_zero (hn : n ≠ 0) (h : (numeral b n).head? = some d) : d ≠ 0 := by
  unfold numeral at h
  rw [if_neg hn, List.head?_reverse] at h
  have hne : Nat.digits b n ≠ [] := Nat.digits_ne_nil_iff_ne_zero.2 hn
  rw [List.getLast?_eq_getLast_of_ne_nil hne] at h
  rw [← Option.some.inj h]
  exact Nat.getLast_digit_ne_zero b hn

theorem length_numeral_le (hb : 1 < b) (hk : 0 < k) : (numeral b n).length ≤ k ↔ n < b ^ k := by
  unfold numeral
  split
  · next hn =>
    subst hn
    exact iff_of_true hk (Nat.pow_pos (by omega))
  · rw [List.length_reverse]
    exact Nat.digits_length_le_iff hb n

/-! ## Writing -/

theorem lows_zero (b k : Nat) : lows b k 0 = List.replicate k 0 := by
  induction k with
  | zero => rfl
  | succ k ih => rw [lows, Nat.zero_mod, Nat.zero_div, ih, List.replicate_succ]

theorem lows_eq (hb : 1 < b) (h : n < b ^ k) : lows b k n = Nat.digitsAppend b k n := by
  unfold Nat.digitsAppend
  induction k generalizing n with
  | zero =>
    have hn : n = 0 := by simpa using h
    subst hn
    rw [Nat.digits_zero]
    rfl
  | succ k ih =>
    by_cases hn : n = 0
    · subst hn
      rw [lows_zero, Nat.digits_zero]
      rfl
    · have hq : n / b < b ^ k := Nat.div_lt_of_lt_mul (by rwa [Nat.pow_succ'] at h)
      rw [lows, ih hq, Nat.digits_def' hb (Nat.pos_of_ne_zero hn), List.length_cons, Nat.succ_sub_succ]
      rfl

theorem mem_lows (hb : 1 < b) (h : d ∈ lows b k n) : d < b := by
  induction k generalizing n with
  | zero => cases h
  | succ k ih =>
    rcases List.mem_cons.1 h with rfl | h
    · exact Nat.mod_lt _ (by omega)
    · exact ih h

/-- The digits of a number, with zeros in front of it, are stripped to its numeral. -/
theorem strip_lows (hb : 1 < b) (hk : 0 < k) (h : n < b ^ k) : strip (lows b k n) = numeral b n := by
  have hdrop : (lows b k n).reverse.dropWhile (fun d => d = 0) = (Nat.digits b n).reverse := by
    rw [lows_eq hb h, Nat.digitsAppend, List.reverse_append, List.reverse_replicate]
    rw [List.dropWhile_append_of_pos (by simp)]
    cases hd : (Nat.digits b n).reverse with
    | nil => rfl
    | cons d ds =>
      have hn : n ≠ 0 := by
        rintro rfl
        simp at hd
      have hhead : (numeral b n).head? = some d := by
        rw [numeral, if_neg hn, hd]
        rfl
      rw [List.dropWhile_cons_of_neg (by simpa using head_ne_zero hn hhead)]
  unfold strip numeral
  rw [hdrop]
  by_cases hn : n = 0
  · subst hn
    obtain ⟨k, rfl⟩ : ∃ m, k = m + 1 := ⟨k - 1, by omega⟩
    rw [if_pos rfl, lows_zero, Nat.digits_zero]
    rfl
  · rw [if_neg hn, if_neg (by simpa using digits_reverse_ne_nil hn)]

theorem lows_high {q r : Nat} (hq : q < b) (hr : r < b ^ k) : lows b (k + 1) (q * b ^ k + r) = lows b k r ++ [q] := by
  have hb : 0 < b := Nat.zero_lt_of_lt hq
  induction k generalizing r with
  | zero =>
    have h0 : r = 0 := by simpa using hr
    subst h0
    rw [Nat.pow_zero, Nat.mul_one, Nat.add_zero]
    change [q % b] = [q]
    rw [Nat.mod_eq_of_lt hq]
  | succ k ih =>
    have hmul : q * b ^ (k + 1) = b * (q * b ^ k) := by rw [Nat.pow_succ', Nat.mul_left_comm]
    have hdiv : (q * b ^ (k + 1) + r) / b = q * b ^ k + r / b := by rw [hmul, Nat.mul_add_div hb]
    have hmod : (q * b ^ (k + 1) + r) % b = r % b := by rw [hmul, Nat.mul_add_mod]
    have hlt : r / b < b ^ k := Nat.div_lt_of_lt_mul (by rwa [Nat.pow_succ'] at hr)
    rw [lows, hdiv, hmod, ih hlt]
    rfl

/-- A numeral is its first digit and the digits of the rest, zeros in front of them included. -/
theorem numeral_high {q r : Nat} (hq0 : q ≠ 0) (hq : q < b) (hr : r < b ^ k) :
    numeral b (q * b ^ k + r) = q :: (lows b k r).reverse := by
  have hb : 1 < b := by omega
  have hn : q * b ^ k + r < b ^ (k + 1) := by
    calc q * b ^ k + r < q * b ^ k + b ^ k := Nat.add_lt_add_left hr _
      _ = (q + 1) * b ^ k := (Nat.succ_mul ..).symm
      _ ≤ b * b ^ k := Nat.mul_le_mul_right _ hq
      _ = b ^ (k + 1) := Nat.pow_succ'.symm
  rw [← strip_lows hb (Nat.succ_pos k) hn, lows_high hq hr, strip, List.reverse_append, List.reverse_singleton,
    List.singleton_append, List.dropWhile_cons_of_neg (by simpa using hq0)]
  rfl

theorem lows_range (b k n : Nat) : lows b k n = (List.range k).map fun i => n / b ^ i % b := by
  induction k generalizing n with
  | zero => rfl
  | succ k ih =>
    rw [lows, ih, List.range_succ_eq_map, List.map_cons, List.map_map, Nat.pow_zero, Nat.div_one]
    apply congrArg (List.cons _)
    apply List.map_congr_left
    intro i _
    change n / b / b ^ i % b = n / b ^ (i + 1) % b
    rw [Nat.div_div_eq_div_mul, Nat.pow_succ']

/-! ## Reading -/

theorem value_append (b a : Nat) (ds es : List Nat) : value b a (ds ++ es) = value b (value b a ds) es :=
  List.foldl_append

theorem value_zeros (b k : Nat) : value b 0 (List.replicate k 0) = 0 := by
  induction k with
  | zero => rfl
  | succ k ih =>
    rw [List.replicate_succ, value, List.foldl_cons, Nat.zero_mul]
    exact ih

theorem value_reverse (b : Nat) (ds : List Nat) : value b 0 ds.reverse = Nat.ofDigits b ds := by
  induction ds with
  | nil => rfl
  | cons d ds ih =>
    rw [List.reverse_cons, value_append, ih, Nat.ofDigits_cons]
    change Nat.ofDigits b ds * b + d = _
    rw [mul_comm, Nat.add_comm]

theorem value_numeral (b n : Nat) : value b 0 (numeral b n) = n := by
  unfold numeral
  split
  · next hn =>
    subst hn
    change 0 * b + 0 = 0
    rw [Nat.zero_mul]
  · rw [value_reverse, Nat.ofDigits_digits]

end Numerals
