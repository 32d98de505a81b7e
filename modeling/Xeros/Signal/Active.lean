import Xeros.Signal.Runs
/-!
# The active handlers

`Active` ties the list of deliveries that have not returned to the kernel: the
context of each handler lies below the frame it was started with, and the part
of that frame that `SIGRETURN` reads is as the delivery left it. The kernel
before a delivery has the outer handlers active, so the definition follows the
list, and what these keep is still as it was then.
-/

namespace Xeros

variable {im : Image} {own : Set Word} {p : Idx} {k k' b : Kernel} {fr : SigFrame} {fs : List SigFrame}

/-- `p` is in the handler that was started with the frame `fr`. -/
structure InHandler (im : Image) (own : Set Word) (p : Idx) (k : Kernel) (fr : SigFrame) : Prop where
  room : 68 ≤ fr.before.esp p
  delivered : Deliverable fr.before p
  sig : fr.sig = sig_to_deliver (fr.before.pending_sig p)
  hi_sig : ∀ i, Has (k.hi_sig p) i ↔ fr.sig < i
  esp : k.esp p ≤ fr.base p
  mem : ∀ x, fr.Keeps own p x → k.mem x = (deliver_signal im fr.before p).mem x

/-- What these frames keep is the same in both kernels. -/
def Intact (own : Set Word) (p : Idx) (fs : List SigFrame) (k k' : Kernel) : Prop :=
  ∀ fr ∈ fs, ∀ x, fr.Keeps own p x → k'.mem x = k.mem x

def Active (im : Image) (own : Set Word) (p : Idx) (k : Kernel) : List SigFrame → Prop
  | [] => ∀ i, Has (k.hi_sig p) i
  | fr :: fs => InHandler im own p k fr ∧ Intact own p fs fr.before k ∧ Active im own p fr.before fs

/-- What counts as above the innermost handler. -/
theorem Active.mask (h : Active im own p k fs) (i : Fin NUM_SIGNAL) :
    Has (k.hi_sig p) i ↔ ∀ fr ∈ fs.head?, fr.sig < i := by
  cases fs with
  | nil =>
    refine ⟨fun _ fr hfr => ?_, fun _ => h i⟩
    cases hfr
  | cons fr fs =>
    rw [h.1.hi_sig i]
    constructor
    · rintro hlt fr' ⟨⟩
      exact hlt
    · intro hall
      exact hall fr rfl

/-- The signal of a delivery is above the handler it interrupts. -/
theorem InHandler.above (h : InHandler im own p k fr) (hfs : Active im own p fr.before fs) {outer : SigFrame}
    (ho : outer ∈ fs.head?) : outer.sig < fr.sig := by
  obtain ⟨i, hpend, hhi⟩ := (meet_ne_zero _ _).1 h.delivered
  have hpos : fr.before.pending_sig p ≠ 0 := by
    intro h0
    rw [Has, h0] at hpend
    simp at hpend
  have hlt := (hfs.mask i).1 hhi outer ho
  have hle := (sig_to_deliver_spec hpos).2 i hpend
  rw [h.sig]
  exact lt_of_lt_of_le hlt hle

/-- From the outermost to the innermost handler the signals increase. -/
theorem Active.increasing (h : Active im own p k fs) : fs.Pairwise fun inner outer => outer.sig < inner.sig := by
  induction fs generalizing k with
  | nil => exact List.Pairwise.nil
  | cons fr fs ih =>
    have hrest := ih h.2.2
    refine List.pairwise_cons.2 ⟨?_, hrest⟩
    intro outer ho
    cases fs with
    | nil => cases ho
    | cons fr1 fs =>
      have h1 : fr1.sig < fr.sig := h.1.above h.2.2 rfl
      rcases List.mem_cons.1 ho with rfl | ho
      · exact h1
      · exact lt_trans ((List.pairwise_cons.1 hrest).1 outer ho) h1

/-! ## Addresses -/

/-- What a frame keeps lies behind the context of its handler. -/
theorem SigFrame.Keeps.above {x : Word} (h : fr.Keeps own p x) (hroom : 68 ≤ fr.before.esp p) :
    (fr.base p).toNat + 44 ≤ x.toNat := by
  have h68 : SIZEOF_SIGNAL_FRAME = 68 := rfl
  have h56 : FrameField.old_sp.offset = 56 := rfl
  rw [SigFrame.Keeps, SigFrame.Saves, SigFrame.base, h68, h56] at h
  rw [SigFrame.base, h68]
  rcases h with ⟨h, -⟩ | ⟨-, h⟩
  · bv_omega
  · bv_omega

/-- What `SIGRETURN` reads is still there when the handler runs. -/
theorem InHandler.saved (h : InHandler im own p k fr) {f : FrameField} (hf : 56 ≤ f.offset.toNat) :
    getFrame k.mem (fr.base p) f = getFrame (deliver_signal im fr.before p).mem (fr.base p) f := by
  apply Mem.load32_congr
  intro x hx
  apply h.mem
  have hroom := h.room
  have hle := offset_le f
  have h68 : SIZEOF_SIGNAL_FRAME = 68 := rfl
  have h56 : FrameField.old_sp.offset = 56 := rfl
  rw [SigFrame.base, h68] at hx
  refine .inl ⟨?_, ?_⟩
  · rw [SigFrame.base, h68, h56]
    bv_omega
  · bv_omega

/-- What the active frames keep lies behind the context of the innermost handler. -/
theorem Active.above (h : Active im own p k fs) : ∀ fr ∈ fs, ∀ x, fr.Keeps own p x → (k.esp p).toNat + 44 ≤ x.toNat := by
  induction fs generalizing k with
  | nil =>
    intro fr hfr
    cases hfr
  | cons fr fs ih =>
    intro fr' hfr' x hx
    obtain ⟨hin, -, hrest⟩ := h
    have hroom := hin.room
    have hesp := hin.esp
    have h68 : SIZEOF_SIGNAL_FRAME = 68 := rfl
    rcases List.mem_cons.1 hfr' with rfl | hfr'
    · have habove := hx.above hroom
      bv_omega
    · have habove := ih hrest fr' hfr' x hx
      rw [SigFrame.base, h68] at hesp
      bv_omega

/-! ## What keeps handlers active -/

/-- The handlers stay active while `hi_sig` is the same, the context stays below
the innermost frame, and what the frames keep is left alone. -/
theorem Active.keep (h : Active im own p k fs) (hhi : k'.hi_sig p = k.hi_sig p)
    (hesp : ∀ fr ∈ fs.head?, k'.esp p ≤ fr.base p) (hmem : Intact own p fs k k') : Active im own p k' fs := by
  cases fs with
  | nil =>
    intro i
    rw [hhi]
    exact h i
  | cons fr fs =>
    obtain ⟨hin, hintact, hrest⟩ := h
    refine ⟨⟨hin.room, hin.delivered, hin.sig, ?_, hesp fr rfl, ?_⟩, ?_, hrest⟩
    · intro i
      rw [hhi]
      exact hin.hi_sig i
    · intro x hx
      exact (hmem fr List.mem_cons_self x hx).trans (hin.mem x hx)
    · intro fr' hfr' x hx
      exact (hmem fr' (List.mem_cons_of_mem fr hfr') x hx).trans (hintact fr' hfr' x hx)

theorem Active.below (h : Active im own p k fs) : ∀ fr ∈ fs.head?, k.esp p ≤ fr.base p := by
  intro fr hfr
  cases fs with
  | nil => cases hfr
  | cons fr' fs =>
    cases hfr
    exact h.1.esp

/-- A delivery starts a handler inside those that are active. -/
theorem Active.deliver (h : Active im own p k fs) (hd : Deliverable k p) (hroom : 68 ≤ k.esp p) :
    Active im own p (deliver_signal im k p) (⟨sig_to_deliver (k.pending_sig p), k⟩ :: fs) := by
  have hspec : Delivered k (deliver_signal im k p) p _ := deliver_signal_spec hd
  refine ⟨⟨hroom, hd, rfl, hspec.hi_sig, ?_, fun x hx => rfl⟩, ?_, h⟩
  · rw [hspec.esp]
    exact BitVec.le_refl (k.esp p - SIZEOF_SIGNAL_FRAME)
  · intro fr hfr x hx
    have habove := h.above fr hfr x hx
    apply hspec.above hroom
    bv_omega

/-- The return value goes into the context, in front of every frame. -/
theorem Active.switch_to (h : Active im own p k fs) : Active im own p (switch_to k p) fs := by
  refine h.keep rfl h.below ?_
  intro fr hfr x hx
  have habove := h.above fr hfr x hx
  have heax : FrameField.eax.offset = 28 := rfl
  apply Mem.store32_outside
  rw [heax]
  bv_omega

/-! ## The return -/

/-- The matching return gives back the kernel before the delivery. -/
theorem InHandler.sigreturn (h : InHandler im own p k fr) (hmem : k'.mem = k.mem) {old_sp : Word}
    (hsp : old_sp = getFrame k.mem (fr.base p) .old_sp) : Restored own p fr.before (Xeros.sigreturn k' p old_sp) := by
  have hspec : Delivered fr.before (deliver_signal im fr.before p) p _ := deliver_signal_spec h.delivered
  have hold : old_sp = fr.before.esp p := by
    rw [hsp, h.saved (by decide)]
    exact hspec.old_sp
  subst hold
  have hfield (f : FrameField) (hf : 56 ≤ f.offset.toNat) : getFrame k'.mem (fr.before.esp p - SIZEOF_SIGNAL_FRAME) f =
      getFrame (deliver_signal im fr.before p).mem (fr.before.esp p - SIZEOF_SIGNAL_FRAME) f := by
    rw [hmem]
    exact h.saved hf
  refine ⟨?_, ?_, ?_, ?_⟩
  · exact Function.update_self ..
  · refine (Function.update_self ..).trans ?_
    rw [hfield .old_hi_sig (by decide)]
    exact hspec.old_hi_sig
  · refine (Function.update_self ..).trans ?_
    rw [hfield .old_irc (by decide)]
    exact hspec.old_irc
  · intro x hown hx
    change k'.mem x = fr.before.mem x
    rw [hmem, h.mem x (.inr ⟨hown, hx⟩)]
    exact hspec.above h.room x hx

/-- Restored, a kernel has the handlers active that were active before. -/
theorem Active.restored (h : Active im own p b fs) (hr : Restored own p b k) (hi : Intact own p fs b k) :
    Active im own p k fs := by
  refine h.keep hr.hi_sig ?_ hi
  intro fr hfr
  rw [hr.esp]
  exact h.below fr hfr

end Xeros
