import Xeros.Procs.Creation
/-!
# Where the first context lies

`create` asks `kmalloc` for the stack, a margin and a context, and puts the
context at the rounded end of the stack. The size is a word and the rounding is
that of an `int`: for a negative stack size there can be a block and no room in
it (`first_context_inside_iff`).
-/

namespace Xeros

variable {im : Image} {k k' : Kernel} {h h' : Heap} {func stack parent r ptr size e : Word} {n : Nat}

/-- A context at `esp` and the return address behind it are bytes of the payload at `ptr`. -/
def ContextInside (esp ptr size : Word) : Prop :=
  ∀ x : Word, (x - esp).toNat < SIZEOF_CONTEXTFRAME.toNat + 4 → (x - ptr).toNat < size.toNat

theorem contextInside_iff (hs : size.toNat ≤ 2 ^ 31) : ContextInside (ptr + e) ptr size ↔ e.toNat + 48 ≤ size.toNat := by
  have h48 : SIZEOF_CONTEXTFRAME.toNat + 4 = 48 := rfl
  unfold ContextInside
  rw [h48]
  constructor
  · intro hall
    have hfirst := hall (ptr + e) (by bv_omega)
    have hlast := hall (ptr + e + 47) (by bv_omega)
    bv_omega
  · intro hle x hx
    bv_omega

/-! ## Rounding -/

/-- A negative `int` is rounded toward 0, and up from there if anything was cut off. -/
theorem align16_of_neg {x : Word} (hx : x.toInt < 0) :
    align16 x = (if (-x).toNat % 16 = 0 then 0 else 16) - BitVec.ofNat 32 ((-x).toNat / 16 * 16) := by
  have hm : x.msb = true := by
    rw [BitVec.msb_eq_toInt]
    simpa using hx
  have h16 : (16 : Word).msb = false := rfl
  have hdiv : (-x) / 16 = BitVec.ofNat 32 ((-x).toNat / 16) := by
    apply BitVec.eq_of_toNat_eq
    have e : ((-x) / 16).toNat = (-x).toNat / 16 := rfl
    rw [e, BitVec.toNat_ofNat, Nat.mod_eq_of_lt (Nat.lt_of_le_of_lt (Nat.div_le_self _ _) (-x).isLt)]
  have hmod : -((-x) % 16) = 0 ↔ (-x).toNat % 16 = 0 := by
    have e : ((-x) % 16).toNat = (-x).toNat % 16 := rfl
    rw [← e]
    generalize (-x) % 16 = m
    bv_omega
  unfold align16
  simp only [BitVec.sdiv_eq, BitVec.srem_eq, hm, h16, BitVec.udiv_eq, ne_eq, hmod, ite_not]
  rw [hdiv]
  have hlt := (-x).isLt
  generalize (-x).toNat = m at hlt ⊢
  split <;> bv_omega

/-! ## The call -/

/-- Where `kmalloc` finds memory, it hands out `align16 size` bytes. -/
theorem kmalloc_size (hk : kmalloc h size = some (ptr, h')) (hp : ptr ≠ 0) :
    0 < size.toInt ∧ h'.get (ptr - SIZEOF_MEMHEADER) .size = align16 size := by
  unfold kmalloc at hk
  split at hk
  · cases hk
    exact absurd rfl hp
  · next hs =>
    refine ⟨Int.not_le.1 hs, ?_⟩
    obtain ⟨node, -, hk⟩ := Option.bind_eq_some_iff.1 hk
    split at hk
    · cases hk
      exact absurd rfl hp
    · cases hk
      have hhdr : dataStart node - SIZEOF_MEMHEADER = node := BitVec.add_sub_cancel _ _
      have hget (g : Heap) {f : HdrField} (v : Word) (hf : f ≠ .size) : (g.set node f v).get node .size = g.get node .size :=
        Mem.load32_store32_of_apart _ _ (HdrField.apart_same hf.symm)
      rw [hhdr, kmalloc_take]
      simp only [hget _ _ (show HdrField.sanityCheck ≠ .size by decide), hget _ _ (show HdrField.prev ≠ .size by decide),
        hget _ _ (show HdrField.next ≠ .size by decide)]
      exact Mem.load32_store32 _ _ _

/-- What `create` leaves when it returns a pid. -/
theorem create_placed (hc : create im k func stack parent = some (r, k')) (hr : r ≠ SYSERR) :
    ∃ p ptr h, k.state p = .STOPPED ∧ k'.state p = .READY ∧ k'.pid p = r ∧
      kmalloc k.toHeap (blockSize stack) = some (ptr, h) ∧ ptr ≠ 0 ∧
      k'.stack p = ptr ∧ k'.esp p = ptr + align16 stack := by
  obtain ⟨rfl, -⟩ | ⟨p, -, hfs, hloop, -⟩ := create_cases hc
  · exact absurd rfl hr
  cases hk : kmalloc k.toHeap (blockSize stack) with
  | none =>
    have hnone : create im k func stack parent = none := congrArg (Option.bind · _) hk
    rw [hnone] at hc
    cases hc
  | some x =>
    obtain ⟨ptr, h⟩ := x
    have hp : ptr ≠ 0 := by
      rintro rfl
      rw [create_refused im func parent hk] at hc
      cases hc
      exact hr rfl
    rw [create_new im func parent hk hp hfs hloop] at hc
    obtain ⟨x, -, hc⟩ := Option.bind_eq_some_iff.1 hc
    obtain ⟨k1, hready, hc⟩ := Option.map_eq_some_iff.1 hc
    cases hc
    have e := ready_eq hready
    refine ⟨p, ptr, h, firstStopped_spec hfs, ?_, ?_, rfl, hp, ?_, ?_⟩
    all_goals
      rw [e]
      exact Function.update_self ..

/-! ## Results -/

/-- The block is large enough for the margin and the context, and these are in it
unless the stack size rounds to a negative number. -/
theorem align16_inside_iff (hs : 0 < (blockSize stack).toInt) :
    (align16 stack).toNat + 48 ≤ (align16 (blockSize stack)).toNat ↔ -31 ≤ stack.toInt ∧ stack.toInt ≠ -16 := by
  rw [align16_toNat hs]
  by_cases hneg : stack.toInt < 0
  · have hhigh : 2 ^ 31 ≤ stack.toNat := by
      rw [BitVec.toInt_eq_toNat_cond] at hneg
      omega
    have htoInt : stack.toInt = -((-stack).toNat : Int) := by
      rw [BitVec.toInt_eq_toNat_cond, if_neg (by omega)]
      bv_omega
    have hblock : (blockSize stack).toNat = 108 - (-stack).toNat ∧ (-stack).toNat ≤ 107 := by
      rw [toInt_pos] at hs
      simp only [blockSize, SAFETY_MARGIN, SIZEOF_CONTEXTFRAME] at hs ⊢
      bv_omega
    obtain ⟨hsize, hle⟩ := hblock
    rw [align16_of_neg hneg, hsize, htoInt]
    generalize (-stack).toNat = m at hle htoInt
    unfold roundUp
    split <;> bv_omega
  · have hnonneg := Int.not_lt.1 hneg
    refine iff_of_true ?_ (by omega)
    have hle := le_roundUp_blockSize hnonneg
    rw [align16_toNat_of_nonneg hnonneg]
    unfold roundUp at hle ⊢
    omega

/-- When `create` returns a pid, the first context and its return address lie in
the stack block exactly when the stack size is -31 or more and not -16. -/
theorem first_context_inside_iff (hc : create im k func stack parent = some (r, k')) (hr : r ≠ SYSERR) :
    ∃ p h, k.state p = .STOPPED ∧ k'.state p = .READY ∧ k'.pid p = r ∧
      kmalloc k.toHeap (blockSize stack) = some (k'.stack p, h) ∧ k'.stack p ≠ 0 ∧
      (ContextInside (k'.esp p) (k'.stack p) (h.get (k'.stack p - SIZEOF_MEMHEADER) .size) ↔
        -31 ≤ stack.toInt ∧ stack.toInt ≠ -16) := by
  obtain ⟨p, ptr, h, hstopped, hready, hpid, hk, hp, rfl, hesp⟩ := create_placed hc hr
  obtain ⟨hpos, hsize⟩ := kmalloc_size hk hp
  refine ⟨p, h, hstopped, hready, hpid, hk, hp, ?_⟩
  have hle : (align16 (blockSize stack)).toNat ≤ 2 ^ 31 := by
    rw [align16_toNat hpos]
    have := (toInt_pos.1 hpos).2
    unfold roundUp
    omega
  rw [hesp, hsize, contextInside_iff hle, align16_inside_iff hpos]

theorem first_context_inside_256 :
    let k := noProcesses (kmeminit 0x20000 ⟨fun _ => 0, 0⟩)
    ∃ k' p h, create sampleImage k 0x5000 256 0 = some (1, k') ∧ k'.pid p = 1 ∧
      kmalloc k.toHeap (blockSize 256) = some (k'.stack p, h) ∧
      ContextInside (k'.esp p) (k'.stack p) (h.get (k'.stack p - SIZEOF_MEMHEADER) .size) := by
  intro k
  have hrun : ((create sampleImage k 0x5000 256 0).any fun r => decide (r.1 = 1)) = true := by decide +kernel
  obtain ⟨⟨r, k'⟩, hc, hr⟩ := (Option.any_eq_true _ _).1 hrun
  obtain rfl : r = 1 := of_decide_eq_true hr
  obtain ⟨p, h, -, -, hpid, hk, -, hiff⟩ := first_context_inside_iff hc (by decide)
  exact ⟨k', p, h, hc, hpid, hk, hiff.2 (by decide)⟩

/-- A process asks for a stack of -64 bytes: it gets a block of 48 bytes, and its
first context starts 64 bytes before them. -/
theorem first_context_below_block : ¬∀ im k k' func stack parent r, create im k func stack parent = some (r, k') →
    r ≠ SYSERR → ∀ p h, k.state p = .STOPPED → k'.state p = .READY →
      kmalloc k.toHeap (blockSize stack) = some (k'.stack p, h) →
      ContextInside (k'.esp p) (k'.stack p) (h.get (k'.stack p - SIZEOF_MEMHEADER) .size) := by
  intro hall
  have hrun : ((create sampleImage (noProcesses (kmeminit 0x20000 ⟨fun _ => 0, 0⟩)) 0x5000 (-64) 0).any
      fun r => decide (r.1 = 1)) = true := by decide +kernel
  obtain ⟨⟨r, k'⟩, hc, hr⟩ := (Option.any_eq_true _ _).1 hrun
  obtain rfl : r = 1 := of_decide_eq_true hr
  obtain ⟨p, ptr, h, hstopped, hready, -, hk, hp, rfl, hesp⟩ := create_placed hc (by decide)
  have hin := hall _ _ _ _ _ _ _ hc (by decide) p h hstopped hready hk
  rw [hesp, (kmalloc_size hk hp).2, contextInside_iff (by decide)] at hin
  exact absurd hin (by decide)

end Xeros
