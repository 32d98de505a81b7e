import Xeros.Kbd.Devices
import Xeros.Model.Disp
import Xeros.Lib.Runs
/-!
# The character buffer is a bounded queue

Next to the driver runs a queue of at most `KEYBOARD_BUF_LEN` characters that
knows nothing of heads and sizes. Inserting, removing, opening and closing in
any order keep the two together (`buffer_fifo`).
-/

namespace Xeros

open Runs

/-- The driver and the queue its buffer stands for. -/
structure BufferSys where
  kernel : Kernel
  queue : List Byte

inductive BufferEvent where
  | insert (c : Byte)
  | remove
  | dvopen (echo : Word) (p : Idx)
  | dvclose (p : Idx)

/-- The driver's buffer and the queue do the same. Opening resets both unless
the device is open already. -/
def bufferStep : BufferEvent → BufferSys → Option BufferSys
  | .insert c, s => some {
      kernel := { s.kernel with kbd := (insert_char s.kernel.kbd c).1 }
      queue := if s.queue.length < KEYBOARD_BUF_LEN then s.queue ++ [c] else s.queue }
  | .remove, s => some {
      kernel := { s.kernel with kbd := ((remove_char s.kernel.kbd).map (·.2)).getD s.kernel.kbd }
      queue := s.queue.tail }
  | .dvopen echo p, s => some {
      kernel := (open_with_echo echo s.kernel p).2
      queue := if s.kernel.kbd.ps.pcb = none then [] else s.queue }
  | .dvclose p, s => some { kernel := (keyboard_close s.kernel p).2, queue := [] }

/-- The statics before anything is typed. -/
def BufferInit (s : BufferSys) : Prop := s.kernel.kbd.head = 0 ∧ s.kernel.kbd.size = 0 ∧ s.queue = []

/-- The buffer stands for the queue, and the operations answer as it does. -/
structure StandsFor (kb : Kbd) (q : List Byte) : Prop where
  head : kb.head < KEYBOARD_BUF_LEN
  size : kb.size = q.length
  bound : kb.size ≤ KEYBOARD_BUF_LEN
  /-- A cell is a signed `char`; the unsigned character is what comes back. -/
  cells : ∀ i (hi : i < q.length),
    BitVec.ofInt 8 (kb.kb_buf (Fin.ofNat KEYBOARD_BUF_LEN (kb.head + i))).toInt = q[i]
  insert : ∀ c, q.length < KEYBOARD_BUF_LEN → (insert_char kb c).2 = 0
  full : ∀ c, ¬q.length < KEYBOARD_BUF_LEN → insert_char kb c = (kb, -1)
  remove : (remove_char kb).map (·.1) = q.head?

/-! ## The invariant -/

/-- The queue is what `ring` says, within the bounds of the array. -/
structure BufferInv (kb : Kbd) (q : List Byte) : Prop where
  ring : kb.ring = q
  head : kb.head < KEYBOARD_BUF_LEN
  bound : kb.size ≤ KEYBOARD_BUF_LEN

namespace BufferInv
variable {kb : Kbd} {q : List Byte}

theorem size (h : BufferInv kb q) : kb.size = q.length := by rw [← h.ring, Kbd.length_ring]

theorem insert_char (h : BufferInv kb q) (c : Byte) :
    BufferInv (Xeros.insert_char kb c).1 (if q.length < KEYBOARD_BUF_LEN then q ++ [c] else q) ∧
      (q.length < KEYBOARD_BUF_LEN → (Xeros.insert_char kb c).2 = 0) ∧
      (¬q.length < KEYBOARD_BUF_LEN → Xeros.insert_char kb c = (kb, -1)) := by
  have hsize := h.size
  by_cases hlt : q.length < KEYBOARD_BUF_LEN
  · have hlt' : kb.size < KEYBOARD_BUF_LEN := by rwa [hsize]
    have hpush := @Ring.contents_push _ _ _ kb.kb_buf kb.head _ hlt' c
    have hring : Ring.contents kb.kb_buf kb.head kb.size = q := h.ring
    rw [hring] at hpush
    rw [if_pos hlt]
    -- only the status of the driver depends on the EOF character
    by_cases he : (c.toNat : Int) = kb.ps.eof
    · simp only [Xeros.insert_char, if_pos hlt', if_pos he]
      exact ⟨⟨hpush, h.head, hlt'⟩, fun _ => trivial, fun hn => absurd hlt hn⟩
    · simp only [Xeros.insert_char, if_pos hlt', if_neg he]
      exact ⟨⟨hpush, h.head, hlt'⟩, fun _ => trivial, fun hn => absurd hlt hn⟩
  · have hge : ¬kb.size < KEYBOARD_BUF_LEN := by rwa [hsize]
    rw [if_neg hlt, Xeros.insert_char, if_neg hge]
    exact ⟨h, fun hn => absurd hn hlt, fun _ => rfl⟩

theorem remove_char (h : BufferInv kb q) :
    BufferInv (((Xeros.remove_char kb).map (·.2)).getD kb) q.tail ∧ (Xeros.remove_char kb).map (·.1) = q.head? := by
  cases q with
  | nil =>
    rw [remove_char_nil h.ring]
    exact ⟨h, rfl⟩
  | cons c R =>
    obtain ⟨kb', hrem, hring, -⟩ := remove_char_cons h.ring
    have hbound := h.bound
    rw [hrem]
    refine ⟨⟨hring, ?_, ?_⟩, rfl⟩
    · rw [Xeros.remove_char] at hrem
      split at hrem
      · cases hrem
        exact Nat.mod_lt _ (by decide)
      · cases hrem
    · have hsize := h.size
      rw [List.length_cons] at hsize
      change kb'.size ≤ _
      rw [← kb'.length_ring, hring]
      omega

theorem standsFor (h : BufferInv kb q) : StandsFor kb q := by
  refine ⟨h.head, h.size, h.bound, fun i hi => ?_, fun c => (h.insert_char c).2.1, fun c => (h.insert_char c).2.2,
    h.remove_char.2⟩
  rw [BitVec.ofInt_toInt]
  simp [← h.ring, Kbd.ring, Ring.contents]

theorem reset {kb' : Kbd} (hh : kb'.head = 0) (hs : kb'.size = 0) : BufferInv kb' [] := by
  refine ⟨?_, ?_, ?_⟩
  · rw [Kbd.ring, hs, Ring.contents_zero]
  · rw [hh]
    decide
  · rw [hs]
    exact Nat.zero_le _

end BufferInv

theorem buffer_inv {s : BufferSys} (hs : Reach bufferStep BufferInit Any s) : BufferInv s.kernel.kbd s.queue := by
  refine hs.inv (fun s => BufferInv s.kernel.kbd s.queue) (fun s h => ?_) fun s e s' h _ ht => ?_
  · rw [h.2.2]
    exact .reset h.1 h.2.1
  · cases e with
    | insert c =>
      cases ht
      exact (h.insert_char c).1
    | remove =>
      cases ht
      exact h.remove_char.1
    | dvopen echo p =>
      cases ht
      cases hp : s.kernel.kbd.ps.pcb with
      | none =>
        simp only [if_pos, open_with_echo, _keyboard_open, hp]
        exact .reset rfl rfl
      | some q =>
        simp only [open_with_echo, _keyboard_open, hp]
        exact h
    | dvclose p =>
      cases ht
      exact .reset rfl rfl

/-- Whatever is inserted, removed, opened and closed, the buffer is the queue. -/
theorem buffer_fifo {s : BufferSys} (hs : Reach bufferStep BufferInit Any s) : StandsFor s.kernel.kbd s.queue :=
  (buffer_inv hs).standsFor

/-- The fifth character finds the buffer full, the sixth goes round its end. -/
theorem buffer_fifo_wraps : ∃ s, Reach bufferStep BufferInit Any s ∧ s.queue = [0xe2, 0xe3, 0xe4, 0xe6] ∧
    StandsFor s.kernel.kbd s.queue := by
  have h0 : Reach bufferStep BufferInit Any { kernel := statics fun _ => 0, queue := [] } := .start ⟨rfl, rfl, rfl⟩
  obtain ⟨s, hs, ht⟩ := h0.exec_any
    [.insert 0xe1, .insert 0xe2, .insert 0xe3, .insert 0xe4, .insert 0xe5, .remove, .insert 0xe6]
    (fun s => decide (s.queue = [0xe2, 0xe3, 0xe4, 0xe6])) (by decide +kernel)
  exact ⟨s, hs, of_decide_eq_true ht, buffer_fifo hs⟩

end Xeros
