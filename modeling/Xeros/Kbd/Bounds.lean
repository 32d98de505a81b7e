import Xeros.Kbd.Driver
/-!
# Reads stay within the caller's buffer

`keyboard_read` trusts its flags and its length. It reaches `abort()` when the
buffered characters do not end a read that it does not let wait, and as the
loop tests its bound only after a character, a read of nothing may store one.
`ReadEndsInBuffer` is what it takes (`read_safe_iff`).
-/

namespace Xeros

open Runs

variable {k k' : Kernel} {p : Idx} {buf buf_len : Word}

/-- The call returns, stores at most into the `buf_len` bytes from `buf` on and
reports no more than that. -/
def ReadSafe (k : Kernel) (p : Idx) (buf buf_len : Word) : Prop :=
  ∃ rc k', keyboard_read k p buf buf_len = some (rc, k') ∧ Mem.SameOutside buf buf_len.toInt.toNat k.mem k'.mem ∧
    (rc = DRV_DONE → (k'.irc p).toInt ≤ max buf_len.toInt 0)

/-- So does an interrupt, for the read that is outstanding. -/
def InterruptSafe (k : Kernel) (p : Idx) : Prop :=
  ∀ codes k' t, keyboard_lower k codes = some (k', t) →
    Mem.SameOutside k.kbd.ps.buf k.kbd.ps.buf_len.toNat k.mem k'.mem ∧
      (k'.state p ≠ .READING → (k'.irc p).toInt ≤ k.kbd.ps.buf_len)

/-- The end of the file has been reached; or the read is of at least one
character and may wait or finds in the buffer what ends it; or the EOF character
is the first to come. -/
def ReadEndsInBuffer (k : Kernel) (buf_len : Word) : Prop :=
  k.kbd.ps.status &&& EOF_REACHED ≠ 0 ∨
    if 1 ≤ buf_len.toInt then
      k.kbd.ps.status &&& EOF_IN_BUF = 0 ∨ buf_len.toInt ≤ k.kbd.size ∨
        ∃ c ∈ k.kbd.ring, IsNewline c ∨ IsEof k.kbd.ps.eof c
    else ∃ c ∈ k.kbd.ring.head?, IsEof k.kbd.ps.eof c

instance (k : Kernel) (buf_len : Word) : Decidable (ReadEndsInBuffer k buf_len) := inferInstanceAs (Decidable (_ ∨ _))

/-- A read that copies is safe if it ends in time. -/
theorem readSafe_iff_of_copies (hp : k.kbd.ps.pcb = some p) (hw : ¬TooFew k buf_len)
    (hr : k.kbd.ps.status &&& EOF_REACHED = 0) :
    ReadSafe k p buf buf_len ↔ (requested k buf buf_len).kbd.outcome = DRV_DONE ∧
      ((requested k buf buf_len).kbd.taken.length : Int) ≤ max buf_len.toInt 0 := by
  obtain ⟨k1, t, hfed, heq⟩ := keyboard_read_copies hp hw hr buf
  have hlen := (requested k buf buf_len).kbd.length_taken_le
  rw [requested_room] at hlen
  -- what is reported is the number of characters taken
  have hirc (hd : (requested k buf buf_len).kbd.outcome = DRV_DONE) :
      (k1.irc p).toInt = (requested k buf buf_len).kbd.taken.length := by
    rcases hfed.outcome with ⟨hb, -⟩ | ⟨-, -, hirc, -⟩
    · rw [hd] at hb
      cases hb
    · have h0 : (requested k buf buf_len).kbd.ps.ch_read = 0 := rfl
      have hmax : buf_len.toInt < 2 ^ 31 := BitVec.toInt_lt
      rw [hirc, Function.update_self, hfed.count, h0, Int.zero_add, BitVec.toInt_ofInt, Int.bmod_eq_of_le] <;> omega
  constructor
  · rintro ⟨rc, k2, hread, -, hrep⟩
    rw [heq] at hread
    split at hread
    · next hd =>
      cases hread
      have hle := hrep rfl
      rw [hirc hd] at hle
      exact ⟨hd, hle⟩
    · cases hread
  · rintro ⟨hd, hle⟩
    rw [if_pos hd] at heq
    refine ⟨DRV_DONE, k1, heq, ?_, fun _ => ?_⟩
    · have hout := hfed.outside
      have e : (requested k buf buf_len).kbd.ps.buf + BitVec.ofInt 32 (requested k buf buf_len).kbd.ps.ch_read =
          buf + BitVec.ofNat 32 0 := rfl
      rw [e] at hout
      exact hout.mono (by omega)
    · rw [hirc hd]
      exact hle

theorem readSafe_iff (hp : k.kbd.ps.pcb = some p) : ReadSafe k p buf buf_len ↔ ReadEndsInBuffer k buf_len := by
  by_cases hw : TooFew k buf_len
  · -- the read waits
    have hsafe : ReadSafe k p buf buf_len := ⟨_, _, keyboard_read_waits hp hw, .refl _ _ _, fun h => by cases h⟩
    have hlt := hw.2
    have hpos : 1 ≤ buf_len.toInt := by omega
    refine iff_of_true hsafe (.inr ?_)
    rw [if_pos hpos]
    exact .inl hw.1
  by_cases hr : k.kbd.ps.status &&& EOF_REACHED = 0
  · rw [readSafe_iff_of_copies hp hw hr, ReadEndsInBuffer, or_iff_right (not_not.2 hr)]
    have hring : (requested k buf buf_len).kbd.ring = k.kbd.ring := rfl
    split
    · next hpos =>
      have hlen := (requested k buf buf_len).kbd.length_taken_le
      rw [requested_room] at hlen
      have hle : ((requested k buf buf_len).kbd.taken.length : Int) ≤ max buf_len.toInt 0 := by omega
      rw [and_iff_left hle, Kbd.outcome_done_iff, requested_room, hring]
      constructor
      · rintro (hstop | hfull)
        · exact .inr (.inr hstop)
        · rw [Kbd.length_ring] at hfull
          exact .inr (.inl (by omega))
      · have hfull (h : buf_len.toInt ≤ k.kbd.size) : max 1 buf_len.toInt.toNat ≤ k.kbd.ring.length := by
          rw [Kbd.length_ring]
          omega
        rintro (hin | hle | hstop)
        · exact .inr (hfull ((not_tooFew hw).resolve_right (not_not.2 hin)))
        · exact .inr (hfull hle)
        · exact .inl hstop
    · next hpos =>
      cases hR : k.kbd.ring with
      | nil =>
        obtain ⟨hout, -⟩ := Kbd.lines_nil (hring.trans hR)
        rw [hout]
        simp [DRV_BLOCK, DRV_DONE]
      | cons c R =>
        by_cases he : (c.toNat : Int) = k.kbd.ps.eof
        · obtain ⟨hout, htaken, -⟩ := Kbd.lines_eof (hring.trans hR) he
          rw [hout, htaken]
          exact iff_of_true ⟨rfl, Int.le_max_right ..⟩ ⟨c, rfl, he⟩
        · -- one character is copied before the bound is tested
          have hlast : c = 10 ∨ ¬(0 : Int) + 1 < buf_len.toInt := .inr (by omega)
          obtain ⟨hout, htaken, -⟩ := Kbd.lines_last (hring.trans hR) he hlast
          rw [hout, htaken]
          simp [he]
          omega
  · have hsafe : ReadSafe k p buf buf_len := by
      refine ⟨_, _, keyboard_read_eof hp hw hr, .refl _ _ _, fun _ => ?_⟩
      simp only [Function.update_self]
      exact Int.le_max_right ..
    exact iff_of_true hsafe (.inl hr)

theorem DriverInv.interruptSafe (h : DriverInv k) (hp : k.state p = .READING) : InterruptSafe k p := by
  intro codes k' t hl
  obtain ⟨howner, hlt⟩ := h.reader p hp
  obtain ⟨k1, t1, hfed, hend⟩ := keyboard_lower_fed howner hlt hl
  obtain ⟨status, hps⟩ := filled_ps k codes
  have h0 := h.ch_read
  have hmax := h.buf_len
  have hlen := (Xeros.filled k codes).kbd.length_taken_le
  rw [Kbd.room, hps] at hlen
  have hmem : Mem.SameOutside k.kbd.ps.buf k.kbd.ps.buf_len.toNat k.mem k1.mem := by
    have hout := hfed.outside
    obtain ⟨i, hi⟩ := Int.eq_ofNat_of_zero_le h0
    rw [hps] at hout
    simp only [hi, BitVec.ofInt_natCast] at hout hlen hlt
    exact hout.mono (by omega)
  have hcount := hfed.count
  rw [hps] at hcount
  rcases hend with ⟨-, rfl, -⟩ | ⟨hout, hready, -⟩
  · refine ⟨hmem, fun hne => absurd ?_ hne⟩
    rw [hfed.frame]
    exact hp
  · rw [ready_eq hready]
    refine ⟨hmem, fun _ => ?_⟩
    rcases hfed.outcome with ⟨hb, -⟩ | ⟨-, -, hirc, -⟩
    · rw [hout] at hb
      cases hb
    · simp only [] at hlen hcount ⊢
      rw [hirc, Function.update_self, hcount, BitVec.toInt_ofInt, Int.bmod_eq_of_le] <;> omega

/-! ## Results -/

/-- However the driver has been used, a read is safe exactly when it may wait or
finds its end in the buffer; an interrupt that serves a read always is. -/
theorem read_safe_iff {k : Kernel} {p : Idx} (hs : Reach driverStep DriverInit DriverOk k) (hp : k.kbd.ps.pcb = some p)
    (buf buf_len : Word) :
    (ReadSafe k p buf buf_len ↔ ReadEndsInBuffer k buf_len) ∧ (k.state p = .READING → InterruptSafe k p) :=
  ⟨readSafe_iff hp, (driver_inv hs).interruptSafe⟩

/-- Process 0 opens the keyboard. -/
theorem alone_opens : Reach driverStep DriverInit DriverOk (keyboard_open alone 0).2 :=
  .next (.start alone_driverInit) (show DriverOk alone (.dvopen 0 0) from trivial) rfl

/-- Two keys are buffered, and a read of two characters gets them. -/
theorem read_safe_2_keys : ∃ k, Reach driverStep DriverInit DriverOk k ∧ k.kbd.size = 2 ∧ ReadSafe k 0 0x1000 2 := by
  obtain ⟨k, hk, hs⟩ := alone_opens.exec_ok (fun _ e => e.isCall) (fun _ _ => driverOk_of_isCall)
    [.key [keyA, keyA]] (fun k => decide (k.kbd.ps.pcb = some 0 ∧ k.kbd.size = 2 ∧ ReadEndsInBuffer k 2))
    (by decide +kernel)
  obtain ⟨hp, hsize, hend⟩ := of_decide_eq_true hs
  exact ⟨k, hk, hsize, (read_safe_iff hk hp 0x1000 2).1.2 hend⟩

/-- A read of nothing from an empty buffer ends in `abort()`. -/
theorem read_aborts : ¬∀ k p buf buf_len, Reach driverStep DriverInit DriverOk k → CanCall k p →
    ReadSafe k p buf buf_len := by
  intro hall
  obtain ⟨rc, k', hread, -⟩ := hall _ 0 0x1000 0 alone_opens ⟨rfl, rfl⟩
  have hnone : keyboard_read (keyboard_open alone 0).2 0 0x1000 0 = none := by rfl
  rw [hnone] at hread
  cases hread

end Xeros
