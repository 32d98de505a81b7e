import Xeros.Signal.Masks
import Xeros.Model.Disp
/-!
# One delivery

`deliver_signal` puts 68 bytes below the stack pointer and keeps there what
`SIGRETURN` needs; nothing at or above the stack pointer changes.
-/

namespace Xeros

variable {im : Image} {k : Kernel} {p : Idx}

/-! ## Frames -/

theorem offset_le (f : FrameField) : f.offset.toNat ≤ 64 := by
  cases f <;> decide

/-- A field of a signal frame lies below the stack pointer it was put under. -/
theorem setFrame_above (m : Mem) {a x : Word} (f : FrameField) (v : Word) (ha : 68 ≤ a) (hx : a ≤ x) :
    setFrame m (a - SIZEOF_SIGNAL_FRAME) f v x = m x := by
  have hf := offset_le f
  have h68 : SIZEOF_SIGNAL_FRAME = 68 := rfl
  apply Mem.store32_outside
  rw [h68]
  bv_omega

theorem zeroRegisters_above (m : Mem) {a x : Word} (ha : 68 ≤ a) (hx : a ≤ x) :
    zeroRegisters m (a - SIZEOF_SIGNAL_FRAME) x = m x := by
  simp only [zeroRegisters, setFrame_above _ _ _ ha hx]

theorem getFrame_setFrame (m : Mem) (a : Word) (f : FrameField) (v : Word) : getFrame (setFrame m a f v) a f = v :=
  Mem.load32_store32 ..

theorem getFrame_setFrame_apart (m : Mem) (a : Word) {f g : FrameField} (v : Word) (h : Mem.Apart g.offset f.offset) :
    getFrame (setFrame m a f v) a g = getFrame m a g := by
  apply Mem.load32_store32_of_apart
  obtain ⟨h1, h2⟩ := h
  constructor <;> bv_omega

/-! ## The delivery -/

/-- The signal that would be delivered next, if there is one. -/
def Deliverable (k : Kernel) (p : Idx) : Prop := k.pending_sig p &&& k.hi_sig p ≠ 0

instance : Decidable (Deliverable k p) := inferInstanceAs (Decidable (_ ≠ _))

theorem deliver_signal_none (h : ¬Deliverable k p) : deliver_signal im k p = k := if_neg h

/-- The frame for `sig_no` has been put on the stack of `p`. -/
structure Delivered (k k' : Kernel) (p : Idx) (sig_no : Fin NUM_SIGNAL) : Prop where
  esp : k'.esp p = k.esp p - SIZEOF_SIGNAL_FRAME
  pending : ∀ i, Has (k'.pending_sig p) i ↔ Has (k.pending_sig p) i ∧ i ≠ sig_no
  hi_sig : ∀ i, Has (k'.hi_sig p) i ↔ sig_no < i
  old_sp : getFrame k'.mem (k.esp p - SIZEOF_SIGNAL_FRAME) .old_sp = k.esp p
  old_hi_sig : getFrame k'.mem (k.esp p - SIZEOF_SIGNAL_FRAME) .old_hi_sig = k.hi_sig p
  old_irc : getFrame k'.mem (k.esp p - SIZEOF_SIGNAL_FRAME) .old_irc = k.irc p
  above : 68 ≤ k.esp p → ∀ x, k.esp p ≤ x → k'.mem x = k.mem x

theorem deliver_signal_spec (h : Deliverable k p) :
    Delivered k (deliver_signal im k p) p (sig_to_deliver (k.pending_sig p)) := by
  have h' : k.pending_sig p &&& k.hi_sig p ≠ 0 := h
  have hesp : (deliver_signal im k p).esp p = k.esp p - SIZEOF_SIGNAL_FRAME := by
    rw [deliver_signal, if_pos h']
    exact Function.update_self ..
  refine ⟨hesp, fun i => ?_, fun i => ?_, ?_, ?_, ?_, fun hroom x hx => ?_⟩
  · rw [← has_clear, deliver_signal, if_pos h']
    simp only [Function.update_self]
  · rw [← has_above, deliver_signal, if_pos h']
    simp only [Function.update_self]
  · rw [deliver_signal, if_pos h']
    simp only []
    rw [getFrame_setFrame_apart _ _ _ (by decide), getFrame_setFrame_apart _ _ _ (by decide), getFrame_setFrame]
  · rw [deliver_signal, if_pos h']
    simp only []
    rw [getFrame_setFrame_apart _ _ _ (by decide), getFrame_setFrame]
  · rw [deliver_signal, if_pos h']
    simp only []
    rw [getFrame_setFrame]
  · rw [deliver_signal, if_pos h']
    simp only [setFrame_above _ _ _ hroom hx, zeroRegisters_above _ hroom hx]

end Xeros
