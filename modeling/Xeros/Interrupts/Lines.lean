import Xeros.Model.I386
import Xeros.Lib.Lockstep
import Xeros.Procs.Effects
/-!
# The interrupt lines follow the devices

Which lines can interrupt is known from the kernel alone: the clock always, the
keyboard while a process has it open, and no other (`IrqLines`). Every event leaves
the controllers so, whatever a process asks for and however it ends, and every
interrupt that comes reaches its entry point. So the machine with its
interrupts makes the runs of `step` in which the keyboard interrupts only while
it is open.
-/

namespace Xeros

open Runs

variable {io : Io} {owner : Option Idx}

/-! ## The controllers -/

def Io.masked (io : Io) (irq : Fin 16) : Bool :=
  if irq.val < 8 then io.master.imr.getLsbD irq else io.slave.imr.getLsbD (irq - 8)

/-- Both controllers are set up, and no interrupt is being served. -/
structure Calm (io : Io) : Prop where
  master : io.master.Quiet
  slave : io.slave.Quiet
  vector : io.master.vector = 0x20
  cascade : io.master.cascade = 4

/-- A line is enabled or disabled, and the others stay as they are. -/
structure Switched (io io' : Io) (irq : Fin 16) (disabled : Bool) : Prop extends Calm io' where
  pit : io'.pit = io.pit
  masked : ∀ i, io'.masked i = if i = irq then disabled else io.masked i

namespace Calm

theorem enable_master (h : Calm io) {irq : Word} (hirq : irq < 8) (disable : Word) : enable_irq io irq disable =
    { io with master := { io.master with
        imr := if disable ≠ 0 then io.master.imr ||| 1#8 <<< irq.toNat else io.master.imr &&& ~~~(1#8 <<< irq.toNat) } } := by
  unfold enable_irq
  simp only [if_pos hirq]
  change { io with master := io.master.data _ } = _
  rw [h.master.data]
  rfl

theorem enable_slave (h : Calm io) {irq : Word} (hirq : ¬irq < 8) (disable : Word) : enable_irq io irq disable =
    { io with slave := { io.slave with
        imr := if disable ≠ 0 then io.slave.imr ||| 1#8 <<< (irq - 8).toNat
          else io.slave.imr &&& ~~~(1#8 <<< (irq - 8).toNat) } } := by
  unfold enable_irq
  simp only [if_neg hirq]
  change { io with slave := io.slave.data _ } = _
  rw [h.slave.data]
  rfl

/-- A bit of a mask that `enable_irq` has written. -/
theorem getLsbD_enable (w : Byte) (disable : Word) (i j : Fin 8) :
    (if disable ≠ 0 then w ||| 1#8 <<< i.val else w &&& ~~~(1#8 <<< i.val)).getLsbD j =
      if j = i then decide (disable ≠ 0) else w.getLsbD j := by
  by_cases hd : disable ≠ 0
  · rw [if_pos hd, Pic.getLsbD_mask, decide_eq_true hd]
    by_cases hj : j = i <;> simp [hj]
  · rw [if_neg hd, Pic.getLsbD_unmask, decide_eq_false hd]
    by_cases hj : j = i <;> simp [hj]

theorem enable_irq (h : Calm io) (irq : Fin 16) (disable : Word) :
    Switched io (Xeros.enable_irq io (BitVec.ofNat 32 irq) disable) irq (decide (disable ≠ 0)) := by
  have hnat : (BitVec.ofNat 32 irq.val).toNat = irq := by
    rw [BitVec.toNat_ofNat]
    omega
  by_cases hirq : irq.val < 8
  · have hlt : BitVec.ofNat 32 irq.val < 8 := by
      rw [BitVec.lt_def, hnat]
      exact hirq
    rw [h.enable_master hlt, hnat]
    refine ⟨⟨⟨h.master.ready, h.master.isr⟩, h.slave, h.vector, h.cascade⟩, rfl, fun i => ?_⟩
    unfold Io.masked
    by_cases hi : i.val < 8
    · rw [if_pos hi, if_pos hi]
      have hbit := getLsbD_enable io.master.imr disable ⟨irq, hirq⟩ ⟨i, hi⟩
      simp only [Fin.mk.injEq, Fin.val_inj] at hbit
      exact hbit
    · have hne : i ≠ irq := by
        rintro rfl
        exact hi hirq
      rw [if_neg hi, if_neg hi, if_neg hne]
  · have hlt : ¬BitVec.ofNat 32 irq.val < 8 := by
      rw [BitVec.lt_def, hnat]
      exact hirq
    have hsub : (BitVec.ofNat 32 irq.val - 8).toNat = irq - 8 := by
      rw [BitVec.toNat_sub_of_le (BitVec.not_lt.1 hlt), hnat]
      rfl
    rw [h.enable_slave hlt, hsub]
    refine ⟨⟨h.master, ⟨h.slave.ready, h.slave.isr⟩, h.vector, h.cascade⟩, rfl, fun i => ?_⟩
    unfold Io.masked
    by_cases hi : i.val < 8
    · have hne : i ≠ irq := by
        rintro rfl
        exact hirq hi
      rw [if_pos hi, if_pos hi, if_neg hne]
    · rw [if_neg hi, if_neg hi]
      have hbit := getLsbD_enable io.slave.imr disable ⟨irq - 8, by omega⟩ ⟨i - 8, by omega⟩
      have hiff : (⟨i - 8, by omega⟩ : Fin 8) = ⟨irq - 8, by omega⟩ ↔ i = irq := by
        rw [Fin.mk.injEq, Fin.ext_iff]
        omega
      simp only [hiff] at hbit
      exact hbit

/-- An end of an interrupt that nobody serves is not noticed. -/
theorem end_of_intr (h : Calm io) : Xeros.end_of_intr io = io := by
  change ({ io with master := io.master.command 0x20, slave := io.slave.command 0x20 } : Io) = io
  rw [h.master.command, h.slave.command]

/-- Both ends of an interrupt leave the controllers as they were before it. -/
theorem serve (h : Calm io) (n : Fin 8) :
    ({ io with master := io.master.serving n } : Io).outb ICU1 EOI = io ∧
      Xeros.end_of_intr { io with master := io.master.serving n } = io := by
  constructor
  · change ({ io with master := (io.master.serving n).command 0x20 } : Io) = io
    rw [h.master.serve]
  · change ({ io with master := (io.master.serving n).command 0x20, slave := io.slave.command 0x20 } : Io) = io
    rw [h.master.serve, h.slave.command]

theorem acknowledge_master (h : Calm io) {irq : Fin 16} (hirq : irq.val < 8) (h2 : irq ≠ 2) : io.acknowledge irq =
    if io.masked irq then none
    else some (0x20 + BitVec.ofNat 8 irq, { io with master := io.master.serving ⟨irq, hirq⟩ }) := by
  have hcascade : ∀ irq : Fin 16, irq.val < 8 → irq ≠ 2 → (4 : Byte).getLsbD irq = false := by decide
  unfold Io.acknowledge Io.masked
  rw [dif_pos hirq, if_pos hirq, h.cascade, hcascade irq hirq h2, h.master.acknowledge, h.vector]
  by_cases hm : io.master.imr.getLsbD irq = true
  · rw [if_pos hm, if_pos hm]
    rfl
  · rw [if_neg hm, if_neg hm]
    rfl

/-- The slave is heard through line 2 of the master. -/
theorem acknowledge_slave (h : Calm io) {irq : Fin 16} (hirq : ¬irq.val < 8 ∨ irq = 2) (h2 : io.masked 2) :
    io.acknowledge irq = none := by
  unfold Io.acknowledge
  rcases hirq with hirq | rfl
  · have hmask : io.master.imr.getLsbD (2 : Fin 8) = true := h2
    rw [dif_neg hirq, h.master.acknowledge, if_pos hmask]
    rfl
  · rw [dif_pos (by decide), h.cascade]
    rfl

end Calm

/-! ## The lines between two events -/

/-- The clock is enabled, and the keyboard while it has an owner. -/
structure IrqLines (io : Io) (owner : Option Idx) : Prop extends Calm io where
  masked : ∀ irq, io.masked irq = decide (irq ≠ 0 ∧ (irq = 1 → owner = none))
  /-- The timer counts a time slice. -/
  pit : io.pit = ⟨TIMER_RATEGEN ||| TIMER_16BIT, none, TIMER_DIV TIME_SLICE_DIV⟩

namespace IrqLines

theorem enable (h : IrqLines io owner) (p : Idx) : IrqLines (Xeros.enable_irq io 1 0) (some p) := by
  have hs := h.toCalm.enable_irq 1 0
  refine ⟨hs.toCalm, fun irq => ?_, hs.pit.trans h.pit⟩
  have hmask := hs.masked irq
  rw [h.masked] at hmask
  by_cases hirq : irq = 1
  · subst hirq
    exact hmask
  · rw [if_neg hirq] at hmask
    refine hmask.trans ?_
    simp [hirq]

theorem disable (h : IrqLines io owner) : IrqLines (Xeros.enable_irq io 1 1) none := by
  have hs := h.toCalm.enable_irq 1 1
  refine ⟨hs.toCalm, fun irq => ?_, hs.pit.trans h.pit⟩
  have hmask := hs.masked irq
  rw [h.masked] at hmask
  by_cases hirq : irq = 1
  · subst hirq
    exact hmask
  · rw [if_neg hirq] at hmask
    refine hmask.trans ?_
    simp [hirq]

theorem clock (h : IrqLines io owner) : io.acknowledge 0 = some (0x20, { io with master := io.master.serving 0 }) := by
  have hm : io.masked 0 = false := by
    rw [h.masked]
    simp
  rw [h.toCalm.acknowledge_master (by decide) (by decide), hm]
  rfl

theorem keyboard (h : IrqLines io owner) : io.acknowledge 1 =
    if owner = none then none else some (0x21, { io with master := io.master.serving 1 }) := by
  have hm : io.masked 1 = decide (owner = none) := by
    rw [h.masked]
    simp
  rw [h.toCalm.acknowledge_master (by decide) (by decide), hm]
  simp only [decide_eq_true_eq]
  rfl

theorem other (h : IrqLines io owner) {irq : Fin 16} (h0 : irq ≠ 0) (h1 : irq ≠ 1) : io.acknowledge irq = none := by
  have hmask : ∀ irq : Fin 16, irq ≠ 0 → irq ≠ 1 → io.masked irq = true := by
    intro irq h0 h1
    rw [h.masked]
    simp [h0, h1]
  by_cases hslave : ¬irq.val < 8 ∨ irq = 2
  · exact h.toCalm.acknowledge_slave hslave (hmask 2 (by decide) (by decide))
  · rw [not_or, not_not] at hslave
    rw [h.toCalm.acknowledge_master hslave.1 hslave.2, hmask irq h0 h1]
    rfl

end IrqLines

end Xeros
