import Xeros.Kbd.Blocked
import Xeros.Kbd.Bounds
/-!
# A read that need not block

`keyboard_read` decides by the number of characters and by `EOF_IN_BUF` whether
a read has to wait; the interrupt decides by the characters themselves. The two
agree exactly when the flag tells what the buffer holds (`immediate_read_iff`).
-/

namespace Xeros

open Runs

/-- Two reads that were due the same characters have got the same. -/
theorem ReadResult.unique {p : Idx} {buf : Word} {n : Nat} {eof : Int} {w xs ys : List Byte} {k k' : Kernel}
    (h : ReadResult p buf n eof w xs k) (h' : ReadResult p buf n eof w ys k') :
    xs = ys ∧ k.irc p = k'.irc p ∧ k.kbd.ring = k'.kbd.ring := by
  have hlen : xs.length = ys.length := Nat.le_antisymm (h.shortest ys h'.stops) (h'.shortest xs h.stops)
  obtain rfl : xs = ys := (List.prefix_of_prefix_length_le h.stops.1 h'.stops.1 (Nat.le_of_eq hlen)).eq_of_length hlen
  refine ⟨rfl, BitVec.eq_of_toNat_eq (h.irc.trans h'.irc.symm), ?_⟩
  have hrest := h.rest
  have hrest' := h'.rest
  split at hrest
  · next hc =>
    rw [if_pos hc] at hrest'
    obtain ⟨c, -, e⟩ := hrest
    obtain ⟨c', -, e'⟩ := hrest'
    exact (List.cons.inj (List.append_cancel_left (e.symm.trans e'))).2
  · next hc =>
    rw [if_neg hc] at hrest'
    exact List.append_cancel_left (hrest.symm.trans hrest')

section
variable (k : Kernel) (p : Idx) (buf buf_len : Word)

/-- The end of the file has been reached, or the buffer holds a line end, the
EOF character or as many characters as are asked for. -/
def EndsAtOnce : Prop :=
  k.kbd.ps.status &&& EOF_REACHED ≠ 0 ∨ Lines.Complete (IsEof k.kbd.ps.eof) IsNewline buf_len.toInt.toNat k.kbd.ring

/-- A blocked read that gets the characters buffered in `k` by interrupts ends as
the read that left `k'`. -/
def SameAsBlocked (k' : Kernel) : Prop :=
  ∀ b codes kb t, Reach blockedStep (BlockedInit p buf buf_len) (StillBlocked p) b → b.kernel.state p = .READING →
    b.kernel.kbd.ps.eof = k.kbd.ps.eof → b.word ++ accepted b.kernel.kbd codes = k.kbd.ring →
    keyboard_lower b.kernel codes = some (kb, t) → .ready p ∈ t →
      k'.irc p = kb.irc p ∧ k'.mem.bytes buf (k'.irc p).toNat = kb.mem.bytes buf (kb.irc p).toNat ∧
        k'.kbd.ring = kb.kbd.ring

/-- The read completes at once exactly when it can, with what a blocked read
would have got; at the end of the file that is nothing. Otherwise it blocks. -/
structure AgreesWithBlocked : Prop where
  completes : EndsAtOnce k buf_len → ∃ k', keyboard_read k p buf buf_len = some (DRV_DONE, k') ∧
    if k.kbd.ps.status &&& EOF_REACHED ≠ 0 then k'.irc p = 0 ∧ k'.mem = k.mem ∧ k'.kbd.ring = k.kbd.ring
    else SameAsBlocked k p buf buf_len k' ∧ ∃ xs,
      ReadResult p buf buf_len.toInt.toNat k.kbd.ps.eof k.kbd.ring xs k' ∧ Mem.SameOutside buf xs.length k.mem k'.mem
  blocks : ¬EndsAtOnce k buf_len → ∃ k', keyboard_read k p buf buf_len = some (DRV_BLOCK, k') ∧
    ∀ q, k'.state q = .READING ↔ q = p

/-- Where the number of characters does not decide, `EOF_IN_BUF` does. -/
def FlagTells : Prop :=
  (k.kbd.size : Int) < buf_len.toInt → (k.kbd.ps.status &&& EOF_IN_BUF ≠ 0 ↔
    k.kbd.ps.status &&& EOF_REACHED ≠ 0 ∨ ∃ c ∈ k.kbd.ring, IsNewline c ∨ IsEof k.kbd.ps.eof c)

instance : Decidable (EndsAtOnce k buf_len) := inferInstanceAs (Decidable (_ ∨ _))
instance : Decidable (FlagTells k buf_len) := inferInstanceAs (Decidable (_ → _))

end

section
variable {k k' : Kernel} {p : Idx} {buf buf_len : Word}

theorem endsAtOnce_iff (hn : 1 ≤ buf_len.toInt) : EndsAtOnce k buf_len ↔ buf_len.toInt ≤ k.kbd.size ∨
    (k.kbd.ps.status &&& EOF_REACHED ≠ 0 ∨ ∃ c ∈ k.kbd.ring, IsNewline c ∨ IsEof k.kbd.ps.eof c) := by
  have hlen : buf_len.toInt.toNat ≤ k.kbd.ring.length ↔ buf_len.toInt ≤ k.kbd.size := by
    rw [Kbd.length_ring]
    omega
  rw [EndsAtOnce, Lines.Complete, hlen, ← or_assoc, or_comm]

/-- A read that gets what is buffered gets what a blocked one would have got. -/
theorem sameAsBlocked (hn : 1 ≤ buf_len.toInt) {xs : List Byte}
    (h : ReadResult p buf buf_len.toInt.toNat k.kbd.ps.eof k.kbd.ring xs k') : SameAsBlocked k p buf buf_len k' := by
  intro b codes kb t hb hwait heof hword hl hready
  obtain ⟨kb', t', hl', hend⟩ := blocked_inv hn hb hwait |>.choose_spec.key hwait codes
  cases hl.symm.trans hl'
  split at hend
  · obtain ⟨-, -, ys, hys, -⟩ := hend
    rw [heof, hword] at hys
    obtain ⟨rfl, hirc, hring⟩ := h.unique hys
    refine ⟨hirc, ?_, hring⟩
    rw [h.irc, hys.irc, h.stored, hys.stored]
  · exact absurd hready hend.2.1

theorem agreesWithBlocked_iff (hn : 1 ≤ buf_len.toInt) (hp : k.kbd.ps.pcb = some p)
    (hidle : ∀ q, k.state q ≠ .READING) : AgreesWithBlocked k p buf buf_len ↔ FlagTells k buf_len := by
  constructor
  · intro h hlt
    have hge : ¬buf_len.toInt ≤ k.kbd.size := Int.not_le.2 hlt
    have hiff := endsAtOnce_iff (k := k) hn
    rw [or_iff_right hge] at hiff
    rw [← hiff]
    constructor
    · -- a read for which the flag is set does not block
      intro hin
      by_contra hno
      obtain ⟨k', hread, -⟩ := h.blocks hno
      obtain ⟨-, ⟨-, h0, -⟩ | ⟨hrc, -⟩ | ⟨hrc, -⟩⟩ := keyboard_read_cases hread
      · exact hin h0
      · cases hrc
      · cases hrc
    · intro hends h0
      obtain ⟨k', hread, -⟩ := h.completes hends
      rw [keyboard_read_waits hp ⟨h0, hlt⟩] at hread
      cases hread
  · intro h
    refine ⟨fun hends => ?_, fun hends => ?_⟩
    · have hw : ¬TooFew k buf_len := by
        rintro ⟨h0, hlt⟩
        exact (h hlt).2 (((endsAtOnce_iff hn).1 hends).resolve_left (Int.not_le.2 hlt)) h0
      by_cases hr : k.kbd.ps.status &&& EOF_REACHED = 0
      · have hcomp := hends.resolve_left (not_not.2 hr)
        have hunder := Underway.requested hn hp buf
        obtain ⟨k1, t, hfed, heq⟩ := keyboard_read_copies hp hw hr buf
        rw [if_pos (hunder.lines.2.2.2.1 hcomp)] at heq
        have hresult := hunder.result hfed hcomp
        refine ⟨k1, heq, ?_⟩
        rw [if_neg (not_not.2 hr)]
        exact ⟨sameAsBlocked hn hresult, _, hresult, (hunder.copied hfed).2.2⟩
      · refine ⟨_, keyboard_read_eof hp hw hr, ?_⟩
        rw [if_pos hr]
        exact ⟨Function.update_self .., rfl, rfl⟩
    · obtain ⟨hlt, hno⟩ := not_or.1 (mt (endsAtOnce_iff hn).2 hends)
      have hlt := Int.not_le.1 hlt
      have h0 : k.kbd.ps.status &&& EOF_IN_BUF = 0 := not_not.1 fun hin => hno ((h hlt).1 hin)
      refine ⟨_, keyboard_read_waits hp ⟨h0, hlt⟩, fun q => ?_⟩
      by_cases hq : q = p
      · subst hq
        simp
      · refine iff_of_false (fun hr => hidle q ?_) hq
        exact (Function.update_of_ne hq ..).symm.trans hr

end

/-! ## Results -/

/-- However the driver has been used: a read completes at once exactly when the
buffered characters complete it, and like a blocked read, if and only if the
flag tells what the buffer holds. -/
theorem immediate_read_iff {k : Kernel} {p : Idx} {buf buf_len : Word}
    (hs : Reach driverStep DriverInit DriverOk k) (hp : CanCall k p) (hn : 1 ≤ buf_len.toInt) :
    AgreesWithBlocked k p buf buf_len ↔ FlagTells k buf_len :=
  agreesWithBlocked_iff hn hp.2 ((driver_inv hs).no_reader hp)

/-- The scan codes of control and `d`, the default EOF character. -/
def keysEof : List Byte := [0x1d, 0x20]

/-- A character and the EOF character are buffered: a read of three does not wait. -/
theorem immediate_read_eof : ∃ k, Reach driverStep DriverInit DriverOk k ∧ k.kbd.ring = [97, 4] ∧
    AgreesWithBlocked k 0 0x1000 3 := by
  obtain ⟨k, hk, hs⟩ := alone_opens.exec_ok (fun _ e => e.isCall) (fun _ _ => driverOk_of_isCall)
    [.key (keyA :: keysEof)] (fun k => decide (CanCall k 0 ∧ k.kbd.ring = [97, 4] ∧ FlagTells k 3)) (by decide +kernel)
  obtain ⟨hp, hring, hflag⟩ := of_decide_eq_true hs
  exact ⟨k, hk, hring, (immediate_read_iff hk hp (by decide)).2 hflag⟩

/-- A line is buffered, and a read of three characters waits for the next key. -/
theorem line_waits : ¬∀ k p buf buf_len, Reach driverStep DriverInit DriverOk k → CanCall k p → 1 ≤ buf_len.toInt →
    AgreesWithBlocked k p buf buf_len := by
  intro hall
  obtain ⟨k, hk, hs⟩ := alone_opens.exec_ok (fun _ e => e.isCall) (fun _ _ => driverOk_of_isCall)
    [.key [keyEnter]] (fun k => decide (CanCall k 0 ∧ k.kbd.ring = [10] ∧ TooFew k 3)) (by decide +kernel)
  obtain ⟨hp, hring, hw⟩ := of_decide_eq_true hs
  have hends : EndsAtOnce k 3 := .inr (.inl ⟨10, by simp [hring], .inl rfl⟩)
  obtain ⟨k', hread, -⟩ := (hall k 0 0x1000 3 hk hp (by decide)).completes hends
  rw [keyboard_read_waits hp.2 hw] at hread
  cases hread

end Xeros
