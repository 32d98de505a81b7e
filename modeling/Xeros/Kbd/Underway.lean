import Xeros.Kbd.Copy
/-!
# What a read is due

A read of `n` characters is due the shortest prefix of the characters that come
which ends a line, stands before the EOF character or has `n` of them
(`ReadResult`). A read under way has been given a part of it (`Underway`), and
the next copy gives the rest or takes all there is.
-/

namespace Xeros

/-- A read of `n` characters into `buf` that was due the characters `w` has
given `xs` to the process `p`. -/
structure ReadResult (p : Idx) (buf : Word) (n : Nat) (eof : Int) (w xs : List Byte) (k : Kernel) : Prop where
  stops : Lines.Stops (IsEof eof) IsNewline n w xs
  shortest : ∀ ys, Lines.Stops (IsEof eof) IsNewline n w ys → xs.length ≤ ys.length
  stored : k.mem.bytes buf xs.length = xs
  irc : (k.irc p).toNat = xs.length
  /-- The rest stays in the buffer, less the EOF character that stopped the read. -/
  rest : if xs.length < n ∧ xs.getLast? ≠ some 10 then ∃ c, IsEof eof c ∧ w = xs ++ c :: k.kbd.ring
    else w = xs ++ k.kbd.ring

/-- The read of `p` has been given `xs`, which do not complete it, and is due the
characters `w` in all, of which the rest is buffered. -/
structure Underway (p : Idx) (buf buf_len : Word) (k : Kernel) (w xs : List Byte) : Prop where
  owner : k.kbd.ps.pcb = some p
  buffer : k.kbd.ps.buf = buf
  len : k.kbd.ps.buf_len = buf_len.toInt
  due : w = xs ++ k.kbd.ring
  ch_read : k.kbd.ps.ch_read = xs.length
  stored : k.mem.bytes buf xs.length = xs
  incomplete : ¬Lines.Complete (IsEof k.kbd.ps.eof) IsNewline buf_len.toInt.toNat xs

namespace Underway
variable {p : Idx} {buf buf_len : Word} {k k' : Kernel} {w xs : List Byte} {t : List Touch}

/-- A read that has just been set up. -/
theorem requested (hn : 1 ≤ buf_len.toInt) (hp : k.kbd.ps.pcb = some p) (buf : Word) :
    Underway p buf buf_len (requested k buf buf_len) k.kbd.ring [] := by
  refine ⟨hp, rfl, rfl, rfl, rfl, rfl, fun hc => ?_⟩
  have h0 := Lines.complete_nil.1 hc
  omega

/-- There is room for more. -/
theorem lt (h : Underway p buf buf_len k w xs) : k.kbd.ps.ch_read < k.kbd.ps.buf_len := by
  have hlt : ¬buf_len.toInt.toNat ≤ xs.length := fun hle => h.incomplete (.inr hle)
  rw [h.ch_read, h.len]
  omega

/-- The scan codes of an interrupt have been read. -/
theorem filled (h : Underway p buf buf_len k w xs) (codes : List Byte) :
    Underway p buf buf_len (filled k codes) (w ++ accepted k.kbd codes) xs := by
  obtain ⟨status, hps⟩ := filled_ps k codes
  have hring : (Xeros.filled k codes).kbd.ring = k.kbd.ring ++ accepted k.kbd codes := keyboard_fill_ring k.kbd codes
  refine ⟨?_, ?_, ?_, ?_, ?_, h.stored, ?_⟩
  · rw [hps]
    exact h.owner
  · rw [hps]
    exact h.buffer
  · rw [hps]
    exact h.len
  · rw [hring, h.due, List.append_assoc]
  · rw [hps]
    exact h.ch_read
  · rw [hps]
    exact h.incomplete

/-- What the buffer holds for the read, in terms of what the read is due. -/
theorem lines (h : Underway p buf buf_len k w xs) :
    Lines.taken (IsEof k.kbd.ps.eof) IsNewline buf_len.toInt.toNat w = xs ++ k.kbd.taken ∧
      Lines.ended (IsEof k.kbd.ps.eof) IsNewline buf_len.toInt.toNat w = k.kbd.ended ∧
      Lines.left (IsEof k.kbd.ps.eof) IsNewline buf_len.toInt.toNat w = k.kbd.left ∧
      (Lines.Complete (IsEof k.kbd.ps.eof) IsNewline buf_len.toInt.toNat w ↔ k.kbd.outcome = DRV_DONE) := by
  have hlt := h.lt
  have hroom : k.kbd.room = buf_len.toInt.toNat - xs.length := by
    rw [h.ch_read, h.len] at hlt
    rw [Kbd.room, h.ch_read, h.len]
    omega
  obtain ⟨h1, h2, h3, h4⟩ := Lines.parts h.incomplete k.kbd.ring
  rw [← h.due, ← hroom] at h1 h2 h3 h4
  exact ⟨h1, h2, h3, h4.trans Kbd.outcome_done_iff.symm⟩

/-- The bytes that are in the buffer of the process after copying. -/
theorem copied (h : Underway p buf buf_len k w xs) (hk : Fed p k k' t) :
    k'.kbd.ps.ch_read = (xs ++ k.kbd.taken).length ∧
      k'.mem.bytes buf (xs ++ k.kbd.taken).length = xs ++ k.kbd.taken ∧
      Mem.SameOutside buf (xs ++ k.kbd.taken).length k.mem k'.mem := by
  have hch : k'.kbd.ps.ch_read = (xs ++ k.kbd.taken).length := by
    rw [hk.count, h.ch_read, List.length_append]
    rfl
  have h0 : 0 ≤ k.kbd.ps.ch_read := by
    rw [h.ch_read]
    exact Int.natCast_nonneg _
  have hmax : k.kbd.ps.buf_len < 2 ^ 31 := by
    rw [h.len]
    exact BitVec.toInt_lt
  have hstored := hk.stored h0 h.lt hmax
  rw [hch, h.ch_read, h.buffer, Int.toNat_natCast, Int.toNat_natCast, h.stored] at hstored
  have houtside := hk.outside
  rw [h.ch_read, h.buffer, BitVec.ofInt_natCast] at houtside
  exact ⟨hch, hstored, houtside.mono (by rw [List.length_append])⟩

/-- The characters do not complete the read: it is given them all. -/
theorem blocked (h : Underway p buf buf_len k w xs) (hk : Fed p k k' t)
    (hinc : ¬Lines.Complete (IsEof k.kbd.ps.eof) IsNewline buf_len.toInt.toNat w) :
    Underway p buf buf_len k' w w ∧ Mem.SameOutside buf w.length k.mem k'.mem := by
  obtain ⟨h1, h2, h3, -⟩ := h.lines
  obtain ⟨e1, e2, e3⟩ := Lines.incomplete hinc
  rw [e1] at h1
  obtain ⟨hch, hstored, houtside⟩ := h.copied hk
  rw [← h1] at hch hstored houtside
  have hps := hk.ps
  refine ⟨⟨?_, ?_, ?_, ?_, hch, hstored, ?_⟩, houtside⟩
  · rw [hps]
    exact h.owner
  · rw [hps]
    exact h.buffer
  · rw [hps]
    exact h.len
  · rw [hk.left, ← h3, e3, List.append_nil]
  · rw [hps]
    exact hinc

/-- The characters complete the read. -/
theorem result (h : Underway p buf buf_len k w xs) (hk : Fed p k k' t)
    (hcomp : Lines.Complete (IsEof k.kbd.ps.eof) IsNewline buf_len.toInt.toNat w) :
    ReadResult p buf buf_len.toInt.toNat k.kbd.ps.eof w (xs ++ k.kbd.taken) k' := by
  obtain ⟨h1, h2, h3, h4⟩ := h.lines
  obtain ⟨hch, hstored, -⟩ := h.copied hk
  have hsplit := @Lines.taken_ended_left _ (IsEof k.kbd.ps.eof) IsNewline _ _ buf_len.toInt.toNat w
  have hlen := @Lines.length_taken_le _ (IsEof k.kbd.ps.eof) IsNewline _ _ buf_len.toInt.toNat w
  have hended := Lines.ended_eq hcomp
  rw [h1] at hsplit hlen hended
  rw [h2] at hended
  rw [h2, h3, ← hk.left] at hsplit
  refine ⟨h1 ▸ Lines.taken_stops hcomp, fun ys hys => ?_, hstored, ?_, ?_⟩
  · rw [← h1]
    exact Lines.taken_le hys
  · have hdone := h4.1 hcomp
    rcases hk.outcome with ⟨hb, -⟩ | ⟨-, -, hirc, -⟩
    · rw [hdone] at hb
      cases hb
    · have hmax : buf_len.toInt < 2 ^ 31 := BitVec.toInt_lt
      rw [hirc, Function.update_self, hch, BitVec.ofInt_natCast, BitVec.toNat_ofNat]
      omega
  · rcases hended with ⟨he, hfull⟩ | ⟨c, hc, he, hlt, hno⟩
    · rw [he, List.append_nil] at hsplit
      rw [if_neg, hsplit]
      rintro ⟨hlt, hlast⟩
      rcases hfull with hfull | ⟨c, hc, rfl⟩
      · omega
      · exact hlast hc
    · rw [if_pos ⟨hlt, fun hl => hno ⟨10, hl, rfl⟩⟩]
      refine ⟨c, hc, ?_⟩
      rw [← hsplit, he]
      simp

end Underway

end Xeros
