import Mathlib.Logic.Function.Basic
import Mathlib.Tactic.Common
/-!
# The 8259A interrupt controller

Eight lines with a mask, and the lines whose interrupts are being served. Line
0 has the highest priority. A controller that is neither masked nor busy
acknowledges a line and gives its vector; it is `Quiet` again when the end of
that interrupt has been signalled. A line that is raised stays so until it is
acknowledged. Rotating priorities, the special mask mode and the end of a
specific interrupt are left out.
-/

/-- What a word to the data port means while the controller is initialized. -/
inductive Icw where
  | vector
  | cascade
  | mode

structure Pic where
  imr : BitVec 8
  isr : BitVec 8
  /-- The vector of line 0. -/
  vector : BitVec 8
  /-- The lines that lead to another controller. -/
  cascade : BitVec 8
  /-- An interrupt ends when it is acknowledged. -/
  aeoi : Bool
  /-- The words the initialization still waits for. -/
  expects : List Icw

namespace Pic

/-- A word to the command port: the start of an initialization, or the end of
the interrupt with the highest priority. -/
def command (p : Pic) (v : BitVec 8) : Pic :=
  if v.getLsbD 4 then
    { p with
      imr := 0
      isr := 0
      aeoi := p.aeoi && v.getLsbD 0
      expects := .vector :: ((if v.getLsbD 1 then [] else [.cascade]) ++ (if v.getLsbD 0 then [.mode] else [])) }
  else if v &&& 0xF8 = 0x20 then { p with isr := p.isr &&& (p.isr - 1) }
  else p

/-- A word to the data port: the next of the initialization, or the mask. -/
def data (p : Pic) (v : BitVec 8) : Pic :=
  match p.expects with
  | [] => { p with imr := v }
  | .vector :: l => { p with vector := v &&& 0xF8, expects := l }
  | .cascade :: l => { p with cascade := v, expects := l }
  | .mode :: l => { p with aeoi := v.getLsbD 1, expects := l }

/-- Line `n` is being served. -/
def serving (p : Pic) (n : Fin 8) : Pic := if p.aeoi then p else { p with isr := p.isr ||| 1#8 <<< n.val }

/-- The processor asks for the vector while line `n` is raised. -/
def acknowledge (p : Pic) (n : Fin 8) : Option (BitVec 8 × Pic) :=
  if p.expects = [] ∧ p.imr.getLsbD n = false ∧ ∀ i ≤ n, p.isr.getLsbD i = false then
    some (p.vector + BitVec.ofNat 8 n, p.serving n)
  else none

/-- Initialized, and serving no line. -/
structure Quiet (p : Pic) : Prop where
  ready : p.expects = []
  isr : p.isr = 0

/-! ## The mask -/

theorem getLsbD_line (i j : Fin 8) : (1#8 <<< i.val).getLsbD j = decide (j = i) := by
  revert i j
  decide

theorem getLsbD_mask (w : BitVec 8) (i j : Fin 8) : (w ||| 1#8 <<< i.val).getLsbD j = (w.getLsbD j || decide (j = i)) := by
  rw [BitVec.getLsbD_or, getLsbD_line]

theorem getLsbD_unmask (w : BitVec 8) (i j : Fin 8) :
    (w &&& ~~~(1#8 <<< i.val)).getLsbD j = (w.getLsbD j && !decide (j = i)) := by
  rw [BitVec.getLsbD_and, BitVec.getLsbD_not, getLsbD_line, decide_eq_true j.isLt, Bool.true_and]

/-! ## The end of an interrupt -/

namespace Quiet
variable {p : Pic}

theorem data (h : p.Quiet) (v : BitVec 8) : p.data v = { p with imr := v } := by
  unfold Pic.data
  rw [h.ready]

/-- A quiet controller acknowledges every line that is not masked. -/
theorem acknowledge (h : p.Quiet) (n : Fin 8) : p.acknowledge n =
    if p.imr.getLsbD n then none else some (p.vector + BitVec.ofNat 8 n, p.serving n) := by
  unfold Pic.acknowledge
  rw [h.isr]
  by_cases hm : p.imr.getLsbD n = true
  · rw [if_pos hm, if_neg (fun hc => by rw [hm] at hc; cases hc.2.1)]
  · rw [if_neg hm, if_pos ⟨h.ready, Bool.not_eq_true _ ▸ hm, fun i _ => BitVec.getLsbD_zero⟩]

/-- The end of an interrupt that is not served changes nothing. -/
theorem command (h : p.Quiet) : p.command 0x20 = p := by
  have e : { p with isr := p.isr &&& (p.isr - 1) } = p := by
    rw [h.isr]
    cases p
    cases h.isr
    rfl
  exact e

/-- The interrupt of a line that is served ends. -/
theorem serve (h : p.Quiet) (n : Fin 8) : (p.serving n).command 0x20 = p := by
  unfold serving
  split
  · exact h.command
  · have hend : ∀ n : Fin 8, (0 ||| 1#8 <<< n.val) &&& ((0 ||| 1#8 <<< n.val) - 1) = 0 := by decide
    have e : { p with isr := (p.isr ||| 1#8 <<< n.val) &&& ((p.isr ||| 1#8 <<< n.val) - 1) } = p := by
      rw [h.isr, hend]
      cases p
      cases h.isr
      rfl
    exact e

end Quiet

end Pic
