import Mathlib.Order.Interval.Set.LinearOrder
import Xeros.Lib.Memory
/-!
# Moving memory

What a copy between blocks that may overlap has done so far: the bytes at a set
of offsets have come from one block to the other as they were at the start, and
nothing else has been written. Steps compose when no byte is read after it has
been written (`Moved.trans`), in whatever order and in chunks of whatever size.
-/

namespace Mem

/-- The bytes of a word in memory. -/
theorem load32_byte (m : Mem) (a : BitVec 32) {i : Nat} (hi : i < 4) :
    (m.load32 a).extractLsb' (8 * i) 8 = m (a + BitVec.ofNat 32 i) := by
  have hcases : i = 0 ∨ i = 1 ∨ i = 2 ∨ i = 3 := by omega
  ext j hj
  rw [BitVec.getElem_extractLsb', load32, BitVec.getLsbD_append, BitVec.getLsbD_append, BitVec.getLsbD_append,
    ← BitVec.getLsbD_eq_getElem]
  rcases hcases with rfl | rfl | rfl | rfl
  · rw [if_pos (by omega)]
    simp
  · rw [if_neg (by omega), if_pos (by omega), Nat.add_sub_cancel_left]
    rfl
  · rw [if_neg (by omega), if_neg (by omega), if_pos (by omega), show 8 * 2 + j - 8 - 8 = j by omega]
    rfl
  · rw [if_neg (by omega), if_neg (by omega), if_neg (by omega), show 8 * 3 + j - 8 - 8 - 8 = j by omega]
    rfl

/-- From `m` to `m'` the bytes at the offsets `S` have moved from `src` to `dst`. -/
structure Moved (src dst : BitVec 32) (S : Set Nat) (m m' : Mem) : Prop where
  moved : ∀ i ∈ S, m' (dst + BitVec.ofNat 32 i) = m (src + BitVec.ofNat 32 i)
  kept : ∀ x, (∀ i ∈ S, x ≠ dst + BitVec.ofNat 32 i) → m' x = m x

namespace Moved
variable {src dst : BitVec 32} {S T : Set Nat} {m m1 m2 : Mem}

theorem refl : Moved src dst ∅ m m where
  moved := fun _ hi => hi.elim
  kept := fun _ _ => rfl

/-- The second step reads nothing that the first one wrote. -/
theorem trans (h1 : Moved src dst S m m1) (h2 : Moved src dst T m1 m2)
    (hread : ∀ i ∈ T, ∀ j ∈ S, src + BitVec.ofNat 32 i ≠ dst + BitVec.ofNat 32 j) : Moved src dst (S ∪ T) m m2 where
  moved := by
    intro i hi
    by_cases hT : ∃ j ∈ T, dst + BitVec.ofNat 32 i = dst + BitVec.ofNat 32 j
    · obtain ⟨j, hj, e⟩ := hT
      have eij : BitVec.ofNat 32 i = BitVec.ofNat 32 j := by
        simpa using e
      rw [eij, h2.moved j hj]
      exact h1.kept _ (hread j hj)
    · have hne : ∀ j ∈ T, dst + BitVec.ofNat 32 i ≠ dst + BitVec.ofNat 32 j := fun j hj e => hT ⟨j, hj, e⟩
      have hS : i ∈ S := hi.resolve_right fun h => hne i h rfl
      rw [h2.kept _ hne, h1.moved i hS]
  kept := by
    intro x hx
    rw [h2.kept x fun i hi => hx i (.inr hi), h1.kept x fun i hi => hx i (.inl hi)]

theorem byte (m : Mem) (src dst : BitVec 32) (i : Nat) : Moved src dst (Set.Ico i (i + 1)) m
    (m.store8 (dst + BitVec.ofNat 32 i) (m (src + BitVec.ofNat 32 i))) where
  moved := by
    rintro j ⟨hi, hj⟩
    obtain rfl : j = i := by omega
    exact store8_same ..
  kept := fun x hx => store8_ne m _ (hx i ⟨Nat.le_refl i, Nat.lt_succ_self i⟩)

theorem word (m : Mem) (src dst : BitVec 32) (i : Nat) : Moved src dst (Set.Ico i (i + 4)) m
    (m.store32 (dst + BitVec.ofNat 32 i) (m.load32 (src + BitVec.ofNat 32 i))) where
  moved := by
    rintro j ⟨hi, hj⟩
    have hin : (dst + BitVec.ofNat 32 j) = dst + BitVec.ofNat 32 i + BitVec.ofNat 32 (j - i) := by bv_omega
    have hsrc : (src + BitVec.ofNat 32 j) = src + BitVec.ofNat 32 i + BitVec.ofNat 32 (j - i) := by bv_omega
    rw [hin, hsrc, store32_inside _ _ _ _ (by omega), load32_byte _ _ (by omega)]
  kept := by
    intro x hx
    apply store32_outside
    by_contra hlt
    have hoff := hx (i + (x - (dst + BitVec.ofNat 32 i)).toNat) ⟨by omega, by omega⟩
    apply hoff
    bv_omega

/-- All bytes of a block. -/
theorem bytes {n : Nat} (h : Moved src dst (Set.Ico 0 n) m m1) : m1.bytes dst n = m.bytes src n := by
  apply List.map_congr_left
  intro i hi
  exact h.moved i ⟨Nat.zero_le i, List.mem_range.1 hi⟩

theorem outside {n : Nat} (h : Moved src dst (Set.Ico 0 n) m m1) (hn : n ≤ 2 ^ 32) : SameOutside dst n m m1 := by
  intro x hx
  apply h.kept
  rintro i ⟨-, hi⟩ rfl
  bv_omega

end Moved

end Mem
