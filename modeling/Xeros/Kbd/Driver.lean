import Xeros.Kbd.Stream
import Xeros.Kbd.Readers
/-!
# The driver in any use

The processes open, close and configure the keyboard and read from it, in any
order; interrupts come at any time, and whatever else the kernel and the
processes do leaves the driver alone. Every process that reads owns the device
and has room left in its buffer (`DriverInv`).
-/

namespace Xeros

open Runs

/-! ## The system -/

inductive DriverEvent where
  | dvopen (d : Device) (p : Idx)
  | dvclose (p : Idx)
  | dvioctl (p : Idx) (cmd ap : Word)
  | dvread (p : Idx) (buf buf_len : Word)
  /-- An interrupt with scan codes waiting. -/
  | key (codes : List Byte)
  /-- What else goes on. -/
  | other (k : Kernel)

/-- Process `p`, which has the device open, can call the driver. -/
def CanCall (k : Kernel) (p : Idx) : Prop := k.state p = .RUNNING ∧ k.kbd.ps.pcb = some p

instance (k : Kernel) (p : Idx) : Decidable (CanCall k p) := inferInstanceAs (Decidable (_ ∧ _))

def driverStep : DriverEvent → Kernel → Option Kernel
  | .dvopen d p, k => if k.state p = .RUNNING then some ((keyboards d).dvopen k p).2 else none
  | .dvclose p, k => if CanCall k p then some (keyboard_close k p).2 else none
  | .dvioctl p cmd ap, k => if CanCall k p then some (keyboard_ioclt k p cmd ap).2 else none
  | .dvread p buf buf_len, k => if CanCall k p then (keyboard_read k p buf buf_len).map (·.2) else none
  | .key codes, k => (keyboard_lower k codes).map (·.1)
  | .other k', _ => some k'

/-- The driver as it is linked; nobody reads. -/
def DriverInit (k : Kernel) : Prop := k.kbd = (statics k.mem).kbd ∧ ∀ q, k.state q ≠ .READING

/-- The rest of the system does not touch the driver and starts no read. A
signal may end one. -/
structure LeavesDriver (k k' : Kernel) : Prop where
  kbd : k'.kbd = k.kbd
  readers : NoNewReader k k'

def DriverOk (k : Kernel) : DriverEvent → Prop
  | .other k' => LeavesDriver k k'
  | _ => True

/-- A test for events that are allowed in every state. -/
def DriverEvent.isCall : DriverEvent → Bool
  | .other _ => false
  | _ => true

theorem driverOk_of_isCall {k : Kernel} {e : DriverEvent} (h : e.isCall = true) : DriverOk k e := by
  cases e with
  | other k' => cases h
  | _ => trivial

/-! ## The invariant -/

structure DriverInv (k : Kernel) : Prop where
  size : k.kbd.size ≤ KEYBOARD_BUF_LEN
  ch_read : 0 ≤ k.kbd.ps.ch_read
  buf_len : k.kbd.ps.buf_len < 2 ^ 31
  reader : ∀ q, k.state q = .READING → k.kbd.ps.pcb = some q ∧ k.kbd.ps.ch_read < k.kbd.ps.buf_len

/-- An interrupt fills the buffer at most up to its end. -/
theorem keyboard_fill_size {kb : Kbd} (h : kb.size ≤ KEYBOARD_BUF_LEN) (codes : List Byte) :
    (keyboard_fill kb codes).size ≤ KEYBOARD_BUF_LEN := by
  induction codes generalizing kb with
  | nil => exact h
  | cons code codes ih =>
    unfold keyboard_fill
    set ks := kbtoa kb.state code
    simp only []
    split
    · rcases insert_char_spec { kb with state := ks.2 } (ks.1.setWidth 8) with ⟨kb', hi, hr, -⟩ | hi
      · rw [hi]
        simp only [if_pos]
        apply ih
        rw [insert_char] at hi
        split at hi
        · next hlt =>
          rw [← kb'.length_ring, hr, List.length_append, Kbd.length_ring]
          exact hlt
        · cases hi
      · rw [hi]
        exact h
    · exact ih h

/-- Without the characters that complete it the read has room left. -/
theorem Fed.lt {p : Idx} {k k' : Kernel} {t : List Touch} (h : Fed p k k' t)
    (hlt : k.kbd.ps.ch_read < k.kbd.ps.buf_len) (hout : k.kbd.outcome ≠ DRV_DONE) :
    k'.kbd.ps.ch_read < k'.kbd.ps.buf_len := by
  have hinc : ¬Lines.Complete (IsEof k.kbd.ps.eof) IsNewline k.kbd.room k.kbd.ring := fun hc => hout (if_pos hc)
  have htaken : k.kbd.taken = k.kbd.ring := (Lines.incomplete hinc).1
  have hroom : ¬k.kbd.room ≤ k.kbd.ring.length := fun hle => hinc (.inr hle)
  have hlen : k'.kbd.ps.buf_len = k.kbd.ps.buf_len := by rw [h.ps]
  rw [h.count, hlen, htaken]
  rw [Kbd.room] at hroom
  omega

namespace DriverInv
variable {k k' : Kernel} {p : Idx}

theorem init (h : DriverInit k) : DriverInv k := by
  obtain ⟨hkbd, hread⟩ := h
  have h0 : (0 : Int) < 2 ^ 31 := by decide
  refine ⟨?_, ?_, ?_, fun q hq => absurd hq (hread q)⟩
  all_goals rw [hkbd]
  · exact Nat.zero_le _
  · exact Int.le_refl 0
  · exact h0

/-- Nobody reads while the owner runs. -/
theorem no_reader (h : DriverInv k) (hp : CanCall k p) (q : Idx) : k.state q ≠ .READING := by
  intro hq
  have howner := (h.reader q hq).1
  rw [hp.2] at howner
  cases howner
  rw [hp.1] at hq
  cases hq

/-- Copying takes characters out of the buffer and counts them. -/
theorem fed_bounds {t : List Touch} (h : DriverInv k) (hk : Fed p k k' t) :
    k'.kbd.size ≤ KEYBOARD_BUF_LEN ∧ 0 ≤ k'.kbd.ps.ch_read ∧ k'.kbd.ps.buf_len < 2 ^ 31 := by
  have hcount := hk.count
  have h0 := h.ch_read
  have hlen := congrArg List.length hk.taken
  have hleft := congrArg List.length hk.left
  have hsize := h.size
  simp only [List.length_append, Kbd.length_ring] at hlen hleft
  refine ⟨by omega, by omega, ?_⟩
  rw [hk.ps]
  exact h.buf_len

theorem fed {t : List Touch} (h : DriverInv k) (hk : Fed p k k' t)
    (hlt : ∀ q, k.state q = .READING → k'.kbd.ps.ch_read < k'.kbd.ps.buf_len) : DriverInv k' := by
  obtain ⟨hsize, hch, hlen⟩ := h.fed_bounds hk
  refine ⟨hsize, hch, hlen, fun q hq => ?_⟩
  have hstate : k'.state = k.state := by rw [hk.frame]
  rw [hstate] at hq
  refine ⟨?_, hlt q hq⟩
  rw [hk.ps]
  exact (h.reader q hq).1

theorem filled (h : DriverInv k) (codes : List Byte) : DriverInv (filled k codes) := by
  obtain ⟨status, hps⟩ := filled_ps k codes
  refine ⟨keyboard_fill_size h.size codes, ?_, ?_, ?_⟩
  all_goals rw [hps]
  · exact h.ch_read
  · exact h.buf_len
  · exact h.reader

theorem requested (h : DriverInv k) (hp : CanCall k p) (buf buf_len : Word) : DriverInv (requested k buf buf_len) :=
  ⟨h.size, Int.le_refl 0, BitVec.toInt_lt, fun q hq => absurd hq (h.no_reader hp q)⟩

theorem read {buf buf_len : Word} {rc : Int} (h : DriverInv k) (hp : CanCall k p)
    (hr : keyboard_read k p buf buf_len = some (rc, k')) : DriverInv k' := by
  have hreq := h.requested hp buf buf_len
  by_cases hw : TooFew k buf_len
  · rw [keyboard_read_waits hp.2 hw] at hr
    cases hr
    refine ⟨h.size, Int.le_refl 0, BitVec.toInt_lt, fun q hq => ?_⟩
    have hlt : (0 : Int) < buf_len.toInt := Int.lt_of_le_of_lt (Int.natCast_nonneg _) hw.2
    by_cases hqp : q = p
    · subst hqp
      exact ⟨hp.2, hlt⟩
    · exact absurd ((Function.update_of_ne hqp ..).symm.trans hq) (h.no_reader hp q)
  by_cases hreach : k.kbd.ps.status &&& EOF_REACHED = 0
  · obtain ⟨-, -, t, hfed⟩ := keyboard_read_fed hp.2 hw hreach hr
    exact hreq.fed hfed fun q hq => absurd hq (h.no_reader hp q)
  · rw [keyboard_read_eof hp.2 hw hreach] at hr
    cases hr
    exact ⟨hreq.size, hreq.ch_read, hreq.buf_len, hreq.reader⟩

theorem key {codes : List Byte} {t : List Touch} (h : DriverInv k) (hl : keyboard_lower k codes = some (k', t)) :
    DriverInv k' := by
  have hf := h.filled codes
  rcases keyboard_lower_cases hl with ⟨-, rfl, -⟩ | ⟨hlt, q, -, -, -, -, -, -, hq, -, -⟩
  · exact hf
  obtain ⟨k1, t1, hfed, hend⟩ := keyboard_lower_fed hq hlt hl
  obtain ⟨status, hps⟩ := filled_ps k codes
  have hlt' : (Xeros.filled k codes).kbd.ps.ch_read < (Xeros.filled k codes).kbd.ps.buf_len := by
    rw [hps]
    exact hlt
  rcases hend with ⟨hout, rfl, -⟩ | ⟨-, hready, -⟩
  · exact hf.fed hfed fun _ _ => hfed.lt hlt' hout
  · obtain ⟨hsize, hch, hlen⟩ := hf.fed_bounds hfed
    have e := ready_eq hready
    have hkbd : k'.kbd = k1.kbd := by rw [e]
    have hstate : k1.state = k.state := by
      rw [hfed.frame]
      rfl
    refine ⟨?_, ?_, ?_, fun i hi => ?_⟩
    · rw [hkbd]
      exact hsize
    · rw [hkbd]
      exact hch
    · rw [hkbd]
      exact hlen
    · -- the only reader is readied
      have hi' : Function.update k1.state q .READY i = .READING := by
        rw [e] at hi
        exact hi
      by_cases hiq : i = q
      · subst hiq
        rw [Function.update_self] at hi'
        cases hi'
      · rw [Function.update_of_ne hiq, hstate] at hi'
        have howner := (h.reader i hi').1
        rw [hq] at howner
        exact absurd (Option.some.inj howner).symm hiq

theorem step {e : DriverEvent} (h : DriverInv k) (hok : DriverOk k e) (ht : driverStep e k = some k') :
    DriverInv k' := by
  have h0 : (0 : Int) < 2 ^ 31 := by decide
  cases e with
  | dvopen d p =>
    simp only [driverStep] at ht
    split at ht
    · cases ht
      obtain ⟨echo, hd⟩ := dvopen_echo d
      rw [hd]
      cases hpcb : k.kbd.ps.pcb with
      | some q =>
        rw [open_with_echo, _keyboard_open, hpcb]
        exact h
      | none =>
        rw [open_with_echo, _keyboard_open, hpcb]
        refine ⟨Nat.zero_le _, Int.le_refl 0, h0, fun q hq => ?_⟩
        have howner := (h.reader q hq).1
        rw [hpcb] at howner
        cases howner
    · cases ht
  | dvclose p =>
    simp only [driverStep] at ht
    split at ht
    · next hp =>
      cases ht
      exact ⟨Nat.zero_le _, Int.le_refl 0, h0, fun q hq => absurd hq (h.no_reader hp q)⟩
    · cases ht
  | dvioctl p cmd ap =>
    simp only [driverStep] at ht
    split at ht
    · cases ht
      rw [keyboard_ioclt_eq]
      exact ⟨h.size, h.ch_read, h.buf_len, h.reader⟩
    · cases ht
  | dvread p buf buf_len =>
    simp only [driverStep] at ht
    split at ht
    · next hp =>
      obtain ⟨⟨rc, k1⟩, hr, ht⟩ := Option.map_eq_some_iff.1 ht
      cases ht
      exact h.read hp hr
    · cases ht
  | key codes =>
    obtain ⟨⟨k1, t⟩, hl, ht⟩ := Option.map_eq_some_iff.1 ht
    cases ht
    exact h.key hl
  | other k1 =>
    cases ht
    obtain ⟨hkbd, hreaders⟩ := hok
    refine ⟨?_, ?_, ?_, fun q hq => ?_⟩
    all_goals rw [hkbd]
    · exact h.size
    · exact h.ch_read
    · exact h.buf_len
    · exact h.reader q (hreaders q hq)

end DriverInv

theorem driver_inv {k : Kernel} (hs : Reach driverStep DriverInit DriverOk k) : DriverInv k :=
  hs.inv DriverInv (fun _ h => .init h) fun _ _ _ h hok ht => h.step hok ht

theorem alone_driverInit : DriverInit alone := by
  refine ⟨rfl, fun q => ?_⟩
  simp only [alone]
  split <;> simp

end Xeros
