import Xeros.Lib.Move
import Xeros.Lib.Signed
import Xeros.Model.Kprintf
/-!
# `blkcopy`

The block goes over in words and up to three bytes, front to back or back to
front, and blocks that overlap are moved as if by way of a third one
(`blkcopy_moves`). The direction is chosen by a comparison of signed addresses:
only blocks that overlap across the address 2^31 are moved the wrong way.
-/

namespace Xeros

open Mem (Moved)

/-! ## Repeated moves -/

section rep
variable {src dst size : Word} {movs : Mem → Word → Word → Mem} {n : Nat}

/-- No byte is read behind one that has been written. -/
def ReadsAhead (src dst : Word) (n : Nat) : Prop :=
  ∀ i < n, ∀ j < i, src + BitVec.ofNat 32 i ≠ dst + BitVec.ofNat 32 j

/-- No byte is read in front of one that has been written. -/
def ReadsBehind (src dst : Word) (n : Nat) : Prop :=
  ∀ j < n, ∀ i < j, src + BitVec.ofNat 32 i ≠ dst + BitVec.ofNat 32 j

/-- `movs` moves the `size` bytes at any offset. -/
def MovesBytes (src dst size : Word) (movs : Mem → Word → Word → Mem) : Prop :=
  ∀ m i, Moved src dst (Set.Ico i (i + size.toNat)) m (movs m (src + BitVec.ofNat 32 i) (dst + BitVec.ofNat 32 i))

theorem movsb_moves (src dst : Word) : MovesBytes src dst 1 movsb := fun m i => .byte m src dst i

theorem movsl_moves (src dst : Word) : MovesBytes src dst 4 movsl := fun m i => .word m src dst i

theorem rep_movs_forward (hmovs : MovesBytes src dst size movs) (hread : ReadsAhead src dst n) {k i : Nat}
    (hn : i + k * size.toNat ≤ n) (m : Mem) : ∃ m',
      rep_movs false size movs k (src + BitVec.ofNat 32 i) (dst + BitVec.ofNat 32 i) m =
        (src + BitVec.ofNat 32 (i + k * size.toNat), dst + BitVec.ofNat 32 (i + k * size.toNat), m') ∧
      Moved src dst (Set.Ico i (i + k * size.toNat)) m m' := by
  induction k generalizing i m with
  | zero =>
    refine ⟨m, ?_, ?_⟩
    · rw [Nat.zero_mul, Nat.add_zero]
      rfl
    · rw [Nat.zero_mul, Nat.add_zero, Set.Ico_self]
      exact .refl
  | succ k ih =>
    have hnext : i + (k + 1) * size.toNat = i + size.toNat + k * size.toNat := by
      rw [Nat.succ_mul]
      omega
    have hstep (r : Word) : string_step false size (r + BitVec.ofNat 32 i) = r + BitVec.ofNat 32 (i + size.toNat) := by
      change r + BitVec.ofNat 32 i + size = _
      rw [BitVec.ofNat_add, BitVec.ofNat_toNat, BitVec.setWidth_eq, BitVec.add_assoc]
    rw [hnext] at hn ⊢
    obtain ⟨m', e, hmoved⟩ := ih (i := i + size.toNat) hn (movs m (src + BitVec.ofNat 32 i) (dst + BitVec.ofNat 32 i))
    refine ⟨m', ?_, ?_⟩
    · rw [rep_movs, hstep, hstep, e]
    · have hunion : Set.Ico i (i + size.toNat) ∪ Set.Ico (i + size.toNat) (i + size.toNat + k * size.toNat) =
          Set.Ico i (i + size.toNat + k * size.toNat) :=
        Set.Ico_union_Ico_eq_Ico (Nat.le_add_right ..) (Nat.le_add_right ..)
      rw [← hunion]
      refine (hmovs m i).trans hmoved fun a ha b hb => hread a ?_ b ?_
      · exact Nat.lt_of_lt_of_le ha.2 hn
      · exact Nat.lt_of_lt_of_le hb.2 ha.1

/-- Down to offset `i`, from the last move below `i + k * size` on. -/
theorem rep_movs_backward (hmovs : MovesBytes src dst size movs) (hread : ReadsBehind src dst n) {k i : Nat}
    (hn : i + k * size.toNat ≤ n) (m : Mem) : ∃ m',
      rep_movs true size movs k (src + BitVec.ofNat 32 (i + k * size.toNat) - size)
        (dst + BitVec.ofNat 32 (i + k * size.toNat) - size) m =
          (src + BitVec.ofNat 32 i - size, dst + BitVec.ofNat 32 i - size, m') ∧
      Moved src dst (Set.Ico i (i + k * size.toNat)) m m' := by
  induction k generalizing m with
  | zero =>
    refine ⟨m, ?_, ?_⟩
    · rw [Nat.zero_mul, Nat.add_zero]
      rfl
    · rw [Nat.zero_mul, Nat.add_zero, Set.Ico_self]
      exact .refl
  | succ k ih =>
    have hnext : i + (k + 1) * size.toNat = i + k * size.toNat + size.toNat := by
      rw [Nat.succ_mul, Nat.add_assoc]
    have hlast (r : Word) : r + BitVec.ofNat 32 (i + k * size.toNat + size.toNat) - size =
        r + BitVec.ofNat 32 (i + k * size.toNat) := by
      rw [BitVec.ofNat_add _ size.toNat, BitVec.ofNat_toNat, BitVec.setWidth_eq, ← BitVec.add_assoc, BitVec.add_sub_cancel]
    rw [hnext] at hn ⊢
    obtain ⟨m', e, hmoved⟩ := ih (by omega)
      (movs m (src + BitVec.ofNat 32 (i + k * size.toNat)) (dst + BitVec.ofNat 32 (i + k * size.toNat)))
    refine ⟨m', ?_, ?_⟩
    · rw [rep_movs, hlast, hlast]
      exact e
    · have hunion : Set.Ico (i + k * size.toNat) (i + k * size.toNat + size.toNat) ∪ Set.Ico i (i + k * size.toNat) =
          Set.Ico i (i + k * size.toNat + size.toNat) := by
        rw [Set.union_comm]
        exact Set.Ico_union_Ico_eq_Ico (Nat.le_add_right ..) (Nat.le_add_right ..)
      rw [← hunion]
      refine (hmovs m _).trans hmoved fun a ha b hb => hread b ?_ a ?_
      · exact Nat.lt_of_lt_of_le hb.2 hn
      · exact Nat.lt_of_lt_of_le ha.2 hb.1

end rep

/-! ## Results -/

section
variable {dst src count : Word}

theorem residual_toNat (count : Word) : (count &&& 3).toNat = count.toNat % 4 := by
  rw [BitVec.toNat_and]
  exact Nat.and_two_pow_sub_one_eq_mod _ 2

/-- Where the blocks overlap, the one in front has the lower signed address. -/
def SignedOrder (dst src count : Word) : Prop :=
  ((dst - src).toNat < count.toNat → src.toInt ≤ dst.toInt) ∧ ((src - dst).toNat < count.toNat → dst.toInt ≤ src.toInt)

instance (dst src count : Word) : Decidable (SignedOrder dst src count) := inferInstanceAs (Decidable (_ ∧ _))

theorem SignedOrder.readsAhead (h : SignedOrder dst src count) (hlt : ¬src.toInt ≤ dst.toInt) :
    ReadsAhead src dst count.toNat := by
  intro i hi j hj e
  exact hlt (h.1 (by bv_omega))

theorem SignedOrder.readsBehind (h : SignedOrder dst src count) (hle : src.toInt ≤ dst.toInt) :
    ReadsBehind src dst count.toNat := by
  intro j hj i hi e
  have hlt : count.toNat < 2 ^ 32 := count.isLt
  have heq : dst = src := BitVec.eq_of_toInt_eq (Int.le_antisymm (h.2 (by bv_omega)) hle)
  subst heq
  have hij : BitVec.ofNat 32 i = BitVec.ofNat 32 j := by simpa using e
  have hnat := congrArg BitVec.toNat hij
  rw [BitVec.toNat_ofNat, BitVec.toNat_ofNat] at hnat
  omega

theorem blkcopy_moved (hn : count.toNat < 2 ^ 31) (h : SignedOrder dst src count) (m : Mem) :
    Moved src dst (Set.Ico 0 count.toNat) m (blkcopy m dst src count).1 := by
  have hwords : (count.sshiftRight 2).toNat = count.toNat / 4 := Signed.toNat_sshiftRight (by omega) 2
  have hrest := residual_toNat count
  have hzero (r : Word) : r + BitVec.ofNat 32 0 = r := BitVec.add_zero r
  have hone : (1 : Word).toNat = 1 := rfl
  have hfour : (4 : Word).toNat = 4 := rfl
  have hdiv : count.toNat / 4 * 4 + count.toNat % 4 = count.toNat := Nat.div_add_mod' ..
  have hle : count.toNat / 4 * 4 ≤ count.toNat := by omega
  have hcount (r : Word) : r + BitVec.ofNat 32 count.toNat = r + count := by
    rw [BitVec.ofNat_toNat, BitVec.setWidth_eq]
  unfold blkcopy
  split
  · next hback =>
    obtain ⟨m1, e1, h1⟩ := rep_movs_backward (movsb_moves src dst) (h.readsBehind hback) (k := count.toNat % 4)
      (i := count.toNat / 4 * 4) (by rw [hone]; omega) m
    obtain ⟨m2, e2, h2⟩ := rep_movs_backward (movsl_moves src dst) (h.readsBehind hback) (k := count.toNat / 4) (i := 0)
      (by rw [hfour]; omega) m1
    rw [hone, Nat.mul_one, hdiv] at e1 h1
    rw [hfour, Nat.zero_add] at e2 h2
    have hstart (r : Word) : r + (count - 1) = r + BitVec.ofNat 32 count.toNat - 1 := by
      rw [hcount]
      bv_omega
    have hwordptr (r : Word) : r + BitVec.ofNat 32 (count.toNat / 4 * 4) - 1 - 3 = r + BitVec.ofNat 32 (count.toNat / 4 * 4) - 4 := by
      bv_omega
    simp only [hrest, hwords, hstart, e1, hwordptr, e2]
    have hunion : Set.Ico (count.toNat / 4 * 4) count.toNat ∪ Set.Ico 0 (count.toNat / 4 * 4) = Set.Ico 0 count.toNat := by
      rw [Set.union_comm]
      exact Set.Ico_union_Ico_eq_Ico (Nat.zero_le _) hle
    rw [← hunion]
    refine h1.trans h2 fun a ha b hb => h.readsBehind hback b hb.2 a (Nat.lt_of_lt_of_le ha.2 hb.1)
  · next hforward =>
    obtain ⟨m1, e1, h1⟩ := rep_movs_forward (movsl_moves src dst) (h.readsAhead hforward) (k := count.toNat / 4) (i := 0)
      (by rw [hfour]; omega) m
    obtain ⟨m2, e2, h2⟩ := rep_movs_forward (movsb_moves src dst) (h.readsAhead hforward) (k := count.toNat % 4)
      (i := count.toNat / 4 * 4) (by rw [hone]; omega) m1
    rw [hfour, Nat.zero_add, hzero, hzero] at e1
    rw [hfour, Nat.zero_add] at h1
    rw [hone, Nat.mul_one, hdiv] at e2 h2
    simp only [hrest, hwords, e1, e2]
    have hunion : Set.Ico 0 (count.toNat / 4 * 4) ∪ Set.Ico (count.toNat / 4 * 4) count.toNat = Set.Ico 0 count.toNat :=
      Set.Ico_union_Ico_eq_Ico (Nat.zero_le _) hle
    rw [← hunion]
    exact h1.trans h2 fun a ha b hb => h.readsAhead hforward a ha.2 b (Nat.lt_of_lt_of_le hb.2 ha.1)

/-- The block arrives as it was, and nothing else is written, also where the
blocks overlap. -/
theorem blkcopy_moves (hn : count.toNat < 2 ^ 31) (h : SignedOrder dst src count) (m : Mem) :
    (blkcopy m dst src count).1.bytes dst count.toNat = m.bytes src count.toNat ∧
      Mem.SameOutside dst count.toNat m (blkcopy m dst src count).1 :=
  ⟨(blkcopy_moved hn h m).bytes, (blkcopy_moved hn h m).outside (Nat.le_of_lt count.isLt)⟩

/-- Every byte has the low bits of its address. -/
def sampleMem : Mem := fun a => a.setWidth 8

/-- A line up the screen, in place. -/
theorem blkcopy_moves_scroll :
    (blkcopy sampleMem 0xB8000 0xB80A0 3840).1.bytes 0xB8000 3840 = sampleMem.bytes 0xB80A0 3840 ∧
      Mem.SameOutside 0xB8000 3840 sampleMem (blkcopy sampleMem 0xB8000 0xB80A0 3840).1 := by
  have h : SignedOrder 0xB8000 0xB80A0 3840 := by decide
  exact blkcopy_moves (by decide) h sampleMem

end

end Xeros
