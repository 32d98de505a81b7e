import Mathlib.Algebra.Group.Int.Defs
import Mathlib.Algebra.Group.Nat.Defs
import Mathlib.Algebra.GroupWithZero.Nat
import Mathlib.Logic.Function.Basic
import Mathlib.Tactic.Common
/-!
# Byte-addressed memory with 32-bit words

A flat memory of 2^32 bytes. A word occupies four consecutive bytes, lowest
byte first, and addresses wrap around. A reader needs two facts: a word reads
back what was stored there (`load32_store32`), and a store leaves every word
it does not touch alone (`load32_store32_of_apart`, `load32_congr`).
-/

/-- A memory: the byte at every address. -/
abbrev Mem := BitVec 32 → BitVec 8

namespace Mem

def store8 (m : Mem) (a : BitVec 32) (b : BitVec 8) : Mem := fun x => if x = a then b else m x

def load32 (m : Mem) (a : BitVec 32) : BitVec 32 := m (a + 3) ++ m (a + 2) ++ m (a + 1) ++ m a

def store32 (m : Mem) (a v : BitVec 32) : Mem := fun x =>
  if (x - a).toNat < 4 then v.extractLsb' (8 * (x - a).toNat) 8 else m x

/-- `n` bytes moved upwards one at a time, as `rep movsb` does. -/
def copy (m : Mem) (src dst : BitVec 32) : Nat → Mem
  | 0 => m
  | n + 1 => copy (m.store8 dst (m src)) (src + 1) (dst + 1) n

/-- The `n` bytes from `a` on. -/
def bytes (m : Mem) (a : BitVec 32) (n : Nat) : List (BitVec 8) :=
  (List.range n).map fun i => m (a + BitVec.ofNat 32 i)

/-! ## One byte -/

@[simp] theorem store8_same (m : Mem) (a : BitVec 32) (b : BitVec 8) : m.store8 a b a = b := by
  simp [store8]

theorem store8_ne (m : Mem) {a x : BitVec 32} (b : BitVec 8) (h : x ≠ a) : m.store8 a b x = m x := by
  simp [store8, h]

/-- A byte put behind the first `n`. -/
theorem bytes_store8 (m : Mem) (a : BitVec 32) (b : BitVec 8) {n : Nat} (hn : n < 2 ^ 32) :
    (m.store8 (a + BitVec.ofNat 32 n) b).bytes a (n + 1) = m.bytes a n ++ [b] := by
  rw [bytes, List.range_succ, List.map_append, List.map_singleton, store8_same]
  congr 1
  apply List.map_congr_left
  intro i hi
  have hlt := List.mem_range.1 hi
  apply store8_ne
  bv_omega

/-- The memories differ at most in the `n` bytes from `a` on. -/
def SameOutside (a : BitVec 32) (n : Nat) (m m' : Mem) : Prop := ∀ x : BitVec 32, n ≤ (x - a).toNat → m' x = m x

theorem SameOutside.refl (a : BitVec 32) (n : Nat) (m : Mem) : SameOutside a n m m := fun _ _ => rfl

/-- A byte is stored at `a`, and then at most `n` behind it. -/
theorem SameOutside.cons {m m' : Mem} {a : BitVec 32} {n : Nat} {b : BitVec 8}
    (h : SameOutside (a + 1) n (m.store8 a b) m') : SameOutside a (n + 1) m m' := by
  intro x hx
  rw [h x (by bv_omega), store8_ne m b (by rintro rfl; simp at hx)]

/-- The bytes lie within more bytes. -/
theorem SameOutside.mono {m m' : Mem} {a : BitVec 32} {i n l : Nat} (h : SameOutside (a + BitVec.ofNat 32 i) n m m')
    (hl : i + n ≤ l) : SameOutside a l m m' := by
  intro x hx
  exact h x (by bv_omega)

/-! ## One word -/

/-- Two word addresses whose four bytes do not meet. -/
def Apart (a b : BitVec 32) : Prop := 4 ≤ (a - b).toNat ∧ 4 ≤ (b - a).toNat

instance (a b : BitVec 32) : Decidable (Apart a b) := inferInstanceAs (Decidable (_ ∧ _))

theorem store32_outside (m : Mem) (a v x : BitVec 32) (h : 4 ≤ (x - a).toNat) : m.store32 a v x = m x := by
  simp only [store32, if_neg (Nat.not_lt.2 h)]

theorem store32_inside (m : Mem) (a v : BitVec 32) (i : Nat) (hi : i < 4) :
    m.store32 a v (a + BitVec.ofNat 32 i) = v.extractLsb' (8 * i) 8 := by
  have e : (a + BitVec.ofNat 32 i - a).toNat = i := by
    rw [show a + BitVec.ofNat 32 i - a = BitVec.ofNat 32 i by bv_omega, BitVec.toNat_ofNat]
    omega
  simp only [store32, e, if_pos hi]

/-- A word reads only its own four bytes. -/
theorem load32_congr {m m' : Mem} {a : BitVec 32} (h : ∀ x, (x - a).toNat < 4 → m' x = m x) :
    m'.load32 a = m.load32 a := by
  have h0 : m' a = m a := h a (by simp)
  have h1 : m' (a + 1) = m (a + 1) := h _ (by bv_omega)
  have h2 : m' (a + 2) = m (a + 2) := h _ (by bv_omega)
  have h3 : m' (a + 3) = m (a + 3) := h _ (by bv_omega)
  simp only [load32, h0, h1, h2, h3]

/-- A word shows its four bytes. -/
theorem load32_inj {m m' : Mem} {a : BitVec 32} (h : m'.load32 a = m.load32 a) {x : BitVec 32} (hx : (x - a).toNat < 4) :
    m' x = m x := by
  have hbyte (n : Mem) (i : Nat) (hi : i < 4) : (n.load32 a).extractLsb' (8 * i) 8 = n (a + BitVec.ofNat 32 i) := by
    ext j hj
    simp only [load32, BitVec.getElem_extractLsb', BitVec.getLsbD_append]
    obtain rfl | rfl | rfl | rfl : i = 0 ∨ i = 1 ∨ i = 2 ∨ i = 3 := by omega
    · simp [hj, BitVec.getLsbD_eq_getElem]
    · rw [if_neg (by omega), if_pos (by omega), show 8 * 1 + j - 8 = j by omega, BitVec.getLsbD_eq_getElem hj]
      rfl
    · rw [if_neg (by omega), if_neg (by omega), if_pos (by omega), show 8 * 2 + j - 8 - 8 = j by omega,
        BitVec.getLsbD_eq_getElem hj]
      rfl
    · rw [if_neg (by omega), if_neg (by omega), if_neg (by omega), show 8 * 3 + j - 8 - 8 - 8 = j by omega,
        BitVec.getLsbD_eq_getElem hj]
      rfl
  have e : a + BitVec.ofNat 32 (x - a).toNat = x := by
    rw [BitVec.ofNat_toNat, BitVec.setWidth_eq]
    bv_omega
  have h' := congrArg (fun v => BitVec.extractLsb' (8 * (x - a).toNat) 8 v) h
  rwa [hbyte m' _ hx, hbyte m _ hx, e] at h'

@[simp] theorem load32_store32 (m : Mem) (a v : BitVec 32) : (m.store32 a v).load32 a = v := by
  have h0 : m.store32 a v a = v.extractLsb' 0 8 := by simpa using store32_inside m a v 0 (by omega)
  have h1 : m.store32 a v (a + 1) = v.extractLsb' 8 8 := store32_inside m a v 1 (by omega)
  have h2 : m.store32 a v (a + 2) = v.extractLsb' 16 8 := store32_inside m a v 2 (by omega)
  have h3 : m.store32 a v (a + 3) = v.extractLsb' 24 8 := store32_inside m a v 3 (by omega)
  simp only [load32, h0, h1, h2, h3]
  ext i hi
  simp only [BitVec.getElem_append, BitVec.getElem_extractLsb']
  split
  · simp [BitVec.getLsbD_eq_getElem hi]
  · split
    · rw [show 8 + (i - 8) = i by omega, BitVec.getLsbD_eq_getElem hi]
    · split
      · rw [show 16 + (i - 8 - 8) = i by omega, BitVec.getLsbD_eq_getElem hi]
      · rw [show 24 + (i - 8 - 8 - 8) = i by omega, BitVec.getLsbD_eq_getElem hi]

theorem load32_store32_of_apart (m : Mem) {a b : BitVec 32} (v : BitVec 32) (h : Apart a b) :
    (m.store32 b v).load32 a = m.load32 a :=
  load32_congr fun x hx => store32_outside m b v x (by obtain ⟨h1, h2⟩ := h; bv_omega)

/-! ## Copies -/

theorem copy_outside (m : Mem) (src dst : BitVec 32) {n : Nat} {x : BitVec 32} (h : n ≤ (x - dst).toNat) :
    m.copy src dst n x = m x := by
  induction n generalizing m src dst with
  | zero => rfl
  | succ n ih =>
    have hne : x ≠ dst := by bv_omega
    rw [copy, ih _ _ _ (by bv_omega), store8_ne m _ hne]

/-- A byte is copied as it was unless it has been overwritten before its turn. -/
theorem copy_inside (m : Mem) (src dst : BitVec 32) {i n : Nat} (hi : i < n) (hn : n ≤ 2 ^ 32)
    (h : ∀ j < i, src + BitVec.ofNat 32 i ≠ dst + BitVec.ofNat 32 j) :
    m.copy src dst n (dst + BitVec.ofNat 32 i) = m (src + BitVec.ofNat 32 i) := by
  induction n generalizing m src dst i with
  | zero => exact absurd hi (Nat.not_lt_zero i)
  | succ n ih =>
    rw [copy]
    cases i with
    | zero => rw [copy_outside _ _ _ (by bv_omega), BitVec.add_zero, BitVec.add_zero, store8_same]
    | succ i =>
      have es (a : BitVec 32) (j : Nat) : a + BitVec.ofNat 32 (j + 1) = a + 1 + BitVec.ofNat 32 j := by bv_omega
      have h0 : src + BitVec.ofNat 32 (i + 1) ≠ dst := by simpa using h 0 (Nat.succ_pos i)
      rw [es dst, ih _ _ _ (by omega) (by omega), ← es src, store8_ne m _ h0]
      intro j hj
      rw [← es src, ← es dst]
      exact h (j + 1) (by omega)

/-- The bytes from `a` on do not meet those from `b` on. -/
def Disjoint (a : BitVec 32) (n : Nat) (b : BitVec 32) (l : Nat) : Prop :=
  ∀ x : BitVec 32, (x - a).toNat < n → l ≤ (x - b).toNat

theorem disjoint_zero {a b : BitVec 32} {l : Nat} : Disjoint a 0 b l := fun _ hx => absurd hx (Nat.not_lt_zero _)

theorem bytes_copy (m : Mem) {src dst : BitVec 32} {n : Nat} (hn : n ≤ 2 ^ 32) (h : Disjoint src n dst n) :
    (m.copy src dst n).bytes dst n = m.bytes src n := by
  apply List.map_congr_left
  intro i hi
  have hlt := List.mem_range.1 hi
  refine copy_inside m src dst hlt hn fun j hj e => ?_
  have hd := h (src + BitVec.ofNat 32 i) (by bv_omega)
  bv_omega

theorem bytes_congr {m m' : Mem} {a : BitVec 32} {n : Nat} (hn : n ≤ 2 ^ 32)
    (h : ∀ x : BitVec 32, (x - a).toNat < n → m' x = m x) : m'.bytes a n = m.bytes a n := by
  apply List.map_congr_left
  intro i hi
  have hlt := List.mem_range.1 hi
  exact h _ (by bv_omega)

end Mem
