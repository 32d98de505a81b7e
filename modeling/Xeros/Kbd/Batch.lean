import Xeros.Kbd.Scancodes
/-!
# The characters of one interrupt

An interrupt fills the buffer before it copies to the process that waits, so
what the buffer does not hold is lost, however much room is left in the read.
`no_char_lost_iff` gives the bound.
-/

namespace Xeros

open Runs

/-- The characters of the scan codes that wait. -/
def typed (kb : Kbd) (codes : List Byte) : List Byte := (kbtoa_scans kb.state codes).filterMap (·.char)

/-- Those that are read before the driver stops. -/
def delivered (kb : Kbd) (codes : List Byte) : List Byte := (fill_scans kb codes).filterMap (·.char)

/-- The read of `p` that has copied the characters `xs` has ended before it was
full and not with a line. -/
def EndsEarly (k : Kernel) (p : Idx) (xs : List Byte) : Prop :=
  k.state p = .READY ∧ k.kbd.ps.ch_read < k.kbd.ps.buf_len ∧ xs.getLast? ≠ some 10

instance (k : Kernel) (p : Idx) (xs : List Byte) : Decidable (EndsEarly k p xs) := inferInstanceAs (Decidable (_ ∧ _))

/-- The buffered characters and the batch have been copied to the reader, in
order, up to those that are still buffered; the EOF character that ended the
read, if one did, stands between the two. -/
def NoneLost (k k' : Kernel) (p : Idx) (batch : List Byte) : Prop :=
  ∃ xs, k'.kbd.ps.ch_read = k.kbd.ps.ch_read + xs.length ∧
    k'.mem.bytes k.kbd.ps.buf k'.kbd.ps.ch_read.toNat = k.mem.bytes k.kbd.ps.buf k.kbd.ps.ch_read.toNat ++ xs ∧
    if EndsEarly k' p xs then ∃ c, IsEof k.kbd.ps.eof c ∧ k.kbd.ring ++ batch = xs ++ c :: k'.kbd.ring
    else k.kbd.ring ++ batch = xs ++ k'.kbd.ring

/-! ## How many characters fit -/

section
variable {kb : Kbd} {c : Byte} {codes : List Byte}

theorem insert_char_room (h : kb.size < KEYBOARD_BUF_LEN) (c : Byte) :
    ∃ kb', insert_char kb c = (kb', 0) ∧ kb'.size = kb.size + 1 ∧ kb'.state = kb.state := by
  rw [insert_char, if_pos h]
  by_cases he : (c.toNat : Int) = kb.ps.eof
  · exact ⟨_, if_pos he, rfl, rfl⟩
  · exact ⟨_, if_neg he, rfl, rfl⟩

theorem insert_char_full (h : ¬kb.size < KEYBOARD_BUF_LEN) (c : Byte) : insert_char kb c = (kb, -1) := if_neg h

theorem typed_cons_none {code : Byte} (h : offered (kbtoa kb.state code).1 = none) (codes : List Byte) :
    typed kb (code :: codes) = typed { kb with state := (kbtoa kb.state code).2 } codes := by
  rw [typed, kbtoa_scans, h]
  rfl

theorem typed_cons_some {code : Byte} (h : offered (kbtoa kb.state code).1 = some c) (codes : List Byte) :
    typed kb (code :: codes) = c :: typed { kb with state := (kbtoa kb.state code).2 } codes := by
  rw [typed, kbtoa_scans, h]
  rfl

/-- The buffer takes what it has room for, and the driver reads one character
more. -/
theorem accepted_delivered (hsize : kb.size ≤ KEYBOARD_BUF_LEN) (codes : List Byte) :
    accepted kb codes = (typed kb codes).take (KEYBOARD_BUF_LEN - kb.size) ∧
      delivered kb codes = (typed kb codes).take (KEYBOARD_BUF_LEN - kb.size + 1) := by
  induction codes generalizing kb with
  | nil => simp [accepted, delivered, typed, fill_scans, kbtoa_scans]
  | cons code codes ih =>
    unfold accepted delivered fill_scans
    set ks := kbtoa kb.state code with hks
    simp only []
    split
    · next ha =>
      have hoff : offered (kbtoa kb.state code).1 = some (ks.1.setWidth 8) := if_pos ha
      rw [typed_cons_some hoff]
      by_cases hlt : kb.size < KEYBOARD_BUF_LEN
      · have hlt' : ({ kb with state := ks.2 } : Kbd).size < KEYBOARD_BUF_LEN := hlt
        obtain ⟨kb', hi, hs, hstate⟩ := insert_char_room hlt' (ks.1.setWidth 8)
        have hs : kb'.size = kb.size + 1 := hs
        obtain ⟨hacc, hdel⟩ := @ih kb' (by omega)
        have htyped : typed { kb with state := (kbtoa kb.state code).2 } codes = typed kb' codes := by
          rw [typed, typed, hstate]
        have hroom : KEYBOARD_BUF_LEN - kb.size = KEYBOARD_BUF_LEN - kb'.size + 1 := by omega
        rw [hi, htyped, hroom, List.take_succ_cons, List.take_succ_cons]
        simp only [if_pos]
        exact ⟨congrArg _ hacc, congrArg _ hdel⟩
      · have hfull : KEYBOARD_BUF_LEN - kb.size = 0 := by omega
        have hlt' : ¬({ kb with state := ks.2 } : Kbd).size < KEYBOARD_BUF_LEN := hlt
        rw [insert_char_full hlt', hfull]
        exact ⟨rfl, rfl⟩
    · next ha =>
      have hoff : offered (kbtoa kb.state code).1 = none := if_neg ha
      rw [typed_cons_none hoff]
      exact @ih { kb with state := ks.2 } hsize

/-- Everything that is read is taken if and only if all of it fits. -/
theorem accepted_delivered_iff (hsize : kb.size ≤ KEYBOARD_BUF_LEN) (codes : List Byte) :
    (accepted kb codes).length = (delivered kb codes).length ↔ kb.size + (typed kb codes).length ≤ KEYBOARD_BUF_LEN := by
  obtain ⟨hacc, hdel⟩ := accepted_delivered hsize codes
  rw [hacc, hdel, List.length_take, List.length_take]
  omega

theorem accepted_eq_delivered (hsize : kb.size + (typed kb codes).length ≤ KEYBOARD_BUF_LEN) :
    accepted kb codes = delivered kb codes := by
  obtain ⟨hacc, hdel⟩ := accepted_delivered (by omega : kb.size ≤ KEYBOARD_BUF_LEN) codes
  rw [hacc, hdel, List.take_of_length_le (by omega), List.take_of_length_le (by omega)]

end

/-! ## Where the characters are -/

/-- An interrupt gives the process that waits what completes its read, and keeps
the rest. -/
theorem interrupt_places {k k' : Kernel} {p : Idx} {codes : List Byte} {t : List Touch} (h : DriverInv k)
    (hread : k.state p = .READING) (hl : keyboard_lower k codes = some (k', t)) :
    ∃ xs gone, k.kbd.ring ++ accepted k.kbd codes = xs ++ gone ++ k'.kbd.ring ∧
      k'.kbd.ps.ch_read = k.kbd.ps.ch_read + xs.length ∧
      k'.mem.bytes k.kbd.ps.buf k'.kbd.ps.ch_read.toNat = k.mem.bytes k.kbd.ps.buf k.kbd.ps.ch_read.toNat ++ xs ∧
      if EndsEarly k' p xs then ∃ c, IsEof k.kbd.ps.eof c ∧ gone = [c] else gone = [] := by
  obtain ⟨hp, hlt⟩ := h.reader p hread
  obtain ⟨k1, t1, hfed, hend⟩ := keyboard_lower_fed hp hlt hl
  obtain ⟨status, hps⟩ := filled_ps k codes
  have hring : (filled k codes).kbd.ring = k.kbd.ring ++ accepted k.kbd codes := keyboard_fill_ring k.kbd codes
  have hch : (filled k codes).kbd.ps.ch_read = k.kbd.ps.ch_read := by rw [hps]
  have hbuf : (filled k codes).kbd.ps.buf = k.kbd.ps.buf := by rw [hps]
  have hlen : (filled k codes).kbd.ps.buf_len = k.kbd.ps.buf_len := by rw [hps]
  have heof : (filled k codes).kbd.ps.eof = k.kbd.ps.eof := by rw [hps]
  have hlen1 : k1.kbd.ps.buf_len = k.kbd.ps.buf_len := by rw [hfed.ps, hlen]
  have hroom : (filled k codes).kbd.room = max 1 (k.kbd.ps.buf_len - k.kbd.ps.ch_read).toNat := by
    rw [Kbd.room, hch, hlen]
  have hcount := hfed.count
  have hstored := hfed.stored
  simp only [hch, hbuf, hlen] at hcount hstored
  have hstored := hstored h.ch_read hlt h.buf_len
  have htaken := hfed.taken
  rw [hring, ← hfed.left] at htaken
  refine ⟨(filled k codes).kbd.taken, (filled k codes).kbd.ended, ?_⟩
  rcases hend with ⟨hblock, rfl, -⟩ | ⟨hdone, hready, -⟩
  · have hstate : k'.state p = .READING := by
      rw [hfed.frame]
      exact hread
    have hends : ¬EndsEarly k' p (filled k codes).kbd.taken := by
      rintro ⟨hready, -⟩
      rw [hstate] at hready
      cases hready
    refine ⟨htaken, hcount, hstored, ?_⟩
    rw [if_neg hends]
    exact (Lines.incomplete fun hc => hblock (Kbd.outcome_done_iff.2 hc)).2.1
  · have e := ready_eq hready
    have hkbd : k'.kbd = k1.kbd := by rw [e]
    have hmem : k'.mem = k1.mem := by rw [e]
    have hstate : k'.state p = .READY := by
      rw [e]
      exact Function.update_self ..
    have hcomp := Kbd.outcome_done_iff.1 hdone
    rw [hkbd, hmem]
    refine ⟨htaken, hcount, hstored, ?_⟩
    rcases Lines.ended_eq hcomp with ⟨hended, hstop⟩ | ⟨c, hc, hended, hlt', hno⟩
    · have hends : ¬EndsEarly k' p (filled k codes).kbd.taken := by
        rintro ⟨-, hless, hlast⟩
        rw [hkbd, hcount, hlen1] at hless
        rcases hstop with hfull | ⟨c, hc, rfl⟩
        · have hfull : (filled k codes).kbd.taken.length = (filled k codes).kbd.room := hfull
          omega
        · exact hlast hc
      rw [if_neg hends]
      exact hended
    · have hends : EndsEarly k' p (filled k codes).kbd.taken := by
        have hlt' : (filled k codes).kbd.taken.length < (filled k codes).kbd.room := hlt'
        refine ⟨hstate, ?_, fun hlast => hno ⟨10, hlast, rfl⟩⟩
        rw [hkbd, hcount, hlen1]
        omega
      rw [if_pos hends]
      refine ⟨c, ?_, hended⟩
      rwa [← heof]

/-- The characters of an interrupt all have a place if and only if they fit into
the buffer. -/
theorem noneLost_iff {k k' : Kernel} {p : Idx} {codes : List Byte} {t : List Touch} (h : DriverInv k)
    (hread : k.state p = .READING) (hl : keyboard_lower k codes = some (k', t)) :
    NoneLost k k' p (delivered k.kbd codes) ↔ k.kbd.size + (typed k.kbd codes).length ≤ KEYBOARD_BUF_LEN := by
  obtain ⟨xs, gone, hplaces, hcount, hstored, hgone⟩ := interrupt_places h hread hl
  constructor
  · rintro ⟨ys, hcount', hstored', hkept⟩
    obtain rfl : ys = xs := List.append_cancel_left (hstored'.symm.trans hstored)
    rw [← accepted_delivered_iff h.size]
    split at hkept
    · next hends =>
      rw [if_pos hends] at hgone
      obtain ⟨c, -, rfl⟩ := hgone
      obtain ⟨d, -, hkept⟩ := hkept
      have hlen := congrArg List.length hplaces
      have hlen' := congrArg List.length hkept
      simp only [List.length_append, List.length_cons, List.length_nil] at hlen hlen'
      omega
    · next hends =>
      rw [if_neg hends] at hgone
      subst hgone
      have hlen := congrArg List.length hplaces
      have hlen' := congrArg List.length hkept
      simp only [List.length_append, List.length_nil] at hlen hlen'
      omega
  · intro hfits
    rw [← accepted_eq_delivered hfits]
    refine ⟨xs, hcount, hstored, ?_⟩
    split
    · next hends =>
      rw [if_pos hends] at hgone
      obtain ⟨c, hc, rfl⟩ := hgone
      exact ⟨c, hc, by simpa using hplaces⟩
    · next hends =>
      rw [if_neg hends] at hgone
      subst hgone
      simpa using hplaces

/-! ## Results -/

/-- Whether or not the batch fits into the room that is left in the read: no
character that an interrupt reads is lost if and only if what is buffered and
the characters that wait fit into the buffer together. -/
theorem no_char_lost_iff {k k' : Kernel} {p : Idx} {codes : List Byte} {t : List Touch}
    (hs : Reach driverStep DriverInit DriverOk k) (hread : k.state p = .READING)
    (hl : keyboard_lower k codes = some (k', t)) :
    NoneLost k k' p (delivered k.kbd codes) ↔ k.kbd.size + (typed k.kbd codes).length ≤ KEYBOARD_BUF_LEN :=
  noneLost_iff (driver_inv hs) hread hl

/-- One key is buffered when a read of three blocks, and the next two complete it. -/
theorem no_char_lost_2_keys : ∃ k k' t, Reach driverStep DriverInit DriverOk k ∧ k.state 0 = .READING ∧ k.kbd.size = 1 ∧
    keyboard_lower k [keyA, keyA] = some (k', t) ∧ NoneLost k k' 0 (delivered k.kbd [keyA, keyA]) := by
  have h0 : Reach driverStep DriverInit DriverOk alone := .start alone_driverInit
  obtain ⟨k, hs, ht⟩ := h0.exec_ok (fun _ e => e.isCall) (fun _ _ => driverOk_of_isCall)
    [.dvopen 0 0, .key [keyA], .dvread 0 0x1000 3]
    (fun k => decide (k.state 0 = .READING ∧ k.kbd.size = 1 ∧ (keyboard_lower k [keyA, keyA]).isSome = true ∧
      k.kbd.size + (typed k.kbd [keyA, keyA]).length ≤ KEYBOARD_BUF_LEN))
    (by decide +kernel)
  obtain ⟨hread, hsize, hsome, hfits⟩ := of_decide_eq_true ht
  obtain ⟨⟨k', t⟩, hl⟩ := Option.isSome_iff_exists.1 hsome
  exact ⟨k, k', t, hs, hread, hsize, hl, (no_char_lost_iff hs hread hl).2 hfits⟩

/-- A read of ten is blocked and the buffer is empty. Of five keys that come
together one is lost. -/
theorem fifth_key_lost : ¬∀ k p codes k' t, Reach driverStep DriverInit DriverOk k → k.state p = .READING →
    (k.kbd.size + (delivered k.kbd codes).length : Int) ≤ k.kbd.ps.buf_len - k.kbd.ps.ch_read →
    keyboard_lower k codes = some (k', t) → NoneLost k k' p (delivered k.kbd codes) := by
  intro hall
  have h0 : Reach driverStep DriverInit DriverOk alone := .start alone_driverInit
  obtain ⟨k, hs, ht⟩ := h0.exec_ok (fun _ e => e.isCall) (fun _ _ => driverOk_of_isCall)
    [.dvopen 0 0, .dvread 0 0x1000 10]
    (fun k => decide (k.state 0 = .READING ∧
      (k.kbd.size + (delivered k.kbd (List.replicate 5 keyA)).length : Int) ≤ k.kbd.ps.buf_len - k.kbd.ps.ch_read ∧
      (keyboard_lower k (List.replicate 5 keyA)).isSome = true ∧
      ¬k.kbd.size + (typed k.kbd (List.replicate 5 keyA)).length ≤ KEYBOARD_BUF_LEN))
    (by decide +kernel)
  obtain ⟨hread, hroom, hsome, hfits⟩ := of_decide_eq_true ht
  obtain ⟨⟨k', t⟩, hl⟩ := Option.isSome_iff_exists.1 hsome
  exact hfits ((noneLost_iff (driver_inv hs) hread hl).1 (hall k 0 _ k' t hs hread hroom hl))

end Xeros
