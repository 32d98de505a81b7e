import Xeros.Kbd.Buffer
import Xeros.Lib.Lines
import Xeros.Procs.Lists
/-!
# Copying to the reader

`buf_copy` moves characters from the buffer to the process that has the device
open, up to the first condition that ends a read.
-/

namespace Xeros

/-- What copying to process `p` does: it stores and sets a return value. -/
def Touch.Copies (p : Idx) : Touch → Prop
  | .store _ _ => True
  | .irc q _ => q = p
  | .ready _ => False

/-- Characters `xs` have gone from the buffer to the process `p` and `rest` is
left; `ended` is the EOF character if it has been taken. -/
structure Copied (p : Idx) (k k' : Kernel) (rc : Int) (t : List Touch) (xs ended rest : List Byte) : Prop where
  taken : k.kbd.ring = xs ++ ended ++ rest
  left : k'.kbd.ring = rest
  count : k'.kbd.ps.ch_read = k.kbd.ps.ch_read + xs.length
  bound : k.kbd.ps.ch_read < k.kbd.ps.buf_len → k'.kbd.ps.ch_read ≤ k.kbd.ps.buf_len
  stored : 0 ≤ k.kbd.ps.ch_read → k.kbd.ps.ch_read < k.kbd.ps.buf_len → k.kbd.ps.buf_len < 2 ^ 31 →
    k'.mem.bytes k.kbd.ps.buf k'.kbd.ps.ch_read.toNat = k.mem.bytes k.kbd.ps.buf k.kbd.ps.ch_read.toNat ++ xs
  frame : k' = { k with mem := k'.mem, irc := k'.irc, kbd := k'.kbd }
  ps : k'.kbd.ps = { k.kbd.ps with ch_read := k'.kbd.ps.ch_read, status := k'.kbd.ps.status }
  touches : ∀ e ∈ t, e.Copies p
  quiet : t = [] ↔ k.kbd.ring = []
  outcome : (rc = DRV_BLOCK ∧ ended = [] ∧ rest = [] ∧ k'.kbd.ps.status = k.kbd.ps.status ∧ k'.irc = k.irc) ∨
    rc = DRV_DONE ∧ xs ++ ended ≠ [] ∧ k'.irc = Function.update k.irc p (BitVec.ofInt 32 k'.kbd.ps.ch_read) ∧
      (ended = [] ∧ k'.kbd.ps.status = k.kbd.ps.status ∨
        ∃ c, ended = [c] ∧ (c.toNat : Int) = k.kbd.ps.eof ∧ k'.kbd.ps.status = k.kbd.ps.status ||| EOF_REACHED)

/-- A character stored behind those that are there. -/
theorem bytes_stored (m : Mem) (a : Word) (c : Byte) {n : Int} (h0 : 0 ≤ n) (hn : n < 2 ^ 31) :
    (m.store8 (a + BitVec.ofInt 32 n) c).bytes a (n + 1).toNat = m.bytes a n.toNat ++ [c] := by
  obtain ⟨i, rfl⟩ := Int.eq_ofNat_of_zero_le h0
  have hi : ((i : Int) + 1).toNat = i + 1 := by omega
  rw [hi, Int.toNat_natCast, BitVec.ofInt_natCast]
  exact Mem.bytes_store8 m a c (by omega)

namespace Copied
variable {p : Idx} {k k1 k' : Kernel} {rc : Int} {t : List Touch} {xs ended rest R : List Byte} {c : Byte}

/-- The buffer is empty. -/
theorem empty (h : k.kbd.ring = []) : Copied p k k DRV_BLOCK [] [] [] [] := by
  refine ⟨h, h, by simp, fun hlt => Int.le_of_lt hlt, by simp, rfl, rfl, by simp, by simp [h], ?_⟩
  exact .inl ⟨rfl, rfl, rfl, rfl, rfl⟩

/-- The EOF character ends the read. -/
theorem eof (h : k.kbd.ring = c :: R) (hc : (c.toNat : Int) = k.kbd.ps.eof) {kb : Kbd} (hr : kb.ring = R)
    (hps : kb.ps = { k.kbd.ps with status := k.kbd.ps.status ||| EOF_REACHED }) :
    Copied p k { k with kbd := kb, irc := Function.update k.irc p (BitVec.ofInt 32 kb.ps.ch_read) } DRV_DONE
      [.irc p (BitVec.ofInt 32 kb.ps.ch_read)] [] [c] R := by
  refine ⟨h, hr, ?_, ?_, ?_, rfl, ?_, ?_, by simp [h], .inr ⟨rfl, by simp, rfl, .inr ⟨c, rfl, hc, ?_⟩⟩⟩
  · simp [hps]
  · intro hlt
    rw [hps]
    exact Int.le_of_lt hlt
  · intros
    simp [hps]
  · simp [hps]
  · simp [Touch.Copies]
  · simp [hps]

/-- A character has been stored and the read is complete. -/
theorem last (h : k.kbd.ring = c :: R) {kb : Kbd} (hr : kb.ring = R)
    (hps : kb.ps = { k.kbd.ps with ch_read := k.kbd.ps.ch_read + 1 }) :
    Copied p k
      { k with
        mem := k.mem.store8 (k.kbd.ps.buf + BitVec.ofInt 32 k.kbd.ps.ch_read) c
        kbd := kb
        irc := Function.update k.irc p (BitVec.ofInt 32 kb.ps.ch_read) }
      DRV_DONE [.store (k.kbd.ps.buf + BitVec.ofInt 32 k.kbd.ps.ch_read) c, .irc p (BitVec.ofInt 32 kb.ps.ch_read)]
      [c] [] R := by
  refine ⟨by simp [h], hr, by simp [hps], fun hlt => ?_, fun h0 hlt hlen => ?_, rfl, by simp [hps], ?_, by simp [h],
    .inr ⟨rfl, by simp, rfl, .inl ⟨rfl, by simp [hps]⟩⟩⟩
  · rw [hps]
    exact hlt
  · simp only [hps]
    exact bytes_stored k.mem k.kbd.ps.buf c h0 (by omega)
  · intro e he
    rcases List.mem_cons.1 he with rfl | he
    · trivial
    · rw [List.mem_singleton.1 he]
      rfl

/-- A character has been stored and the copying goes on from `k1`. -/
theorem cons (h : k.kbd.ring = c :: R) {kb : Kbd} (hr : kb.ring = R)
    (hps : kb.ps = { k.kbd.ps with ch_read := k.kbd.ps.ch_read + 1 })
    (hk : k1 = { k with mem := k.mem.store8 (k.kbd.ps.buf + BitVec.ofInt 32 k.kbd.ps.ch_read) c, kbd := kb })
    (hlt : kb.ps.ch_read < kb.ps.buf_len) (h1 : Copied p k1 k' rc t xs ended rest) :
    Copied p k k' rc (.store (k.kbd.ps.buf + BitVec.ofInt 32 k.kbd.ps.ch_read) c :: t) (c :: xs) ended rest := by
  subst hk
  have hcount := h1.count
  have htaken := h1.taken
  have hframe := h1.frame
  have hps' := h1.ps
  have hstored := h1.stored
  have hout := h1.outcome
  have hbound := h1.bound
  simp only [hps] at hcount htaken hframe hps' hstored hout hbound hlt
  refine ⟨?_, h1.left, ?_, fun _ => hbound hlt, fun h0 _ hlen => ?_, hframe, hps', ?_, by simp [h], ?_⟩
  · rw [h, ← hr, htaken]
    simp
  · rw [hcount, List.length_cons]
    omega
  · rw [hstored (by omega) hlt hlen, bytes_stored k.mem k.kbd.ps.buf c h0 (by omega)]
    simp
  · intro e he
    rcases List.mem_cons.1 he with rfl | he
    · trivial
    · exact h1.touches e he
  · rcases hout with h' | ⟨hrc, -, h'⟩
    · exact .inl h'
    · exact .inr ⟨hrc, by simp, h'⟩

theorem eofKnown (h : Copied p k k' rc t xs ended rest) (hk : k.kbd.EofKnown) : k'.kbd.EofKnown := by
  have hmem : ∀ a ∈ ended ++ rest, a ∈ k.kbd.ring := by
    intro a ha
    rw [h.taken, List.append_assoc]
    exact List.mem_append_right _ ha
  have heof : k'.kbd.ps.eof = k.kbd.ps.eof := by rw [h.ps]
  rcases h.outcome with ⟨-, -, -, hst, -⟩ | ⟨-, -, -, ⟨-, hst⟩ | ⟨c, he, hc, hst⟩⟩
  · refine ⟨fun a ha hae => ?_, ?_⟩
    · rw [h.left] at ha
      rw [heof] at hae
      rw [hst]
      exact hk.seen a (hmem a (List.mem_append_right _ ha)) hae
    · rw [hst]
      exact hk.reached
  · refine ⟨fun a ha hae => ?_, ?_⟩
    · rw [h.left] at ha
      rw [heof] at hae
      rw [hst]
      exact hk.seen a (hmem a (List.mem_append_right _ ha)) hae
    · rw [hst]
      exact hk.reached
  · have hin : k.kbd.ps.status &&& EOF_IN_BUF ≠ 0 := hk.seen c (hmem c (by simp [he])) hc
    have hin' : k'.kbd.ps.status &&& EOF_IN_BUF ≠ 0 := by rwa [hst, eof_reached_in_buf]
    exact ⟨fun _ _ _ => hin', fun _ => hin'⟩

end Copied

/-! ## The loop reads a line -/

/-- The character ends the input of the process. -/
abbrev IsEof (eof : Int) (c : Byte) : Prop := (c.toNat : Int) = eof

abbrev IsNewline (c : Byte) : Prop := c = 10

namespace Kbd

/-- The number of characters the loop may copy; it tests only after the first. -/
def room (kb : Kbd) : Nat := max 1 (kb.ps.buf_len - kb.ps.ch_read).toNat

/-- The buffered characters the read that is set up gets. -/
def taken (kb : Kbd) : List Byte := Lines.taken (IsEof kb.ps.eof) IsNewline kb.room kb.ring

def ended (kb : Kbd) : List Byte := Lines.ended (IsEof kb.ps.eof) IsNewline kb.room kb.ring

def left (kb : Kbd) : List Byte := Lines.left (IsEof kb.ps.eof) IsNewline kb.room kb.ring

/-- The return code of `buf_copy`. -/
def outcome (kb : Kbd) : Int :=
  if Lines.Complete (IsEof kb.ps.eof) IsNewline kb.room kb.ring then DRV_DONE else DRV_BLOCK

variable {kb kb' : Kbd} {c : Byte} {R : List Byte}

theorem outcome_done_iff :
    kb.outcome = DRV_DONE ↔ Lines.Complete (IsEof kb.ps.eof) IsNewline kb.room kb.ring := by
  rw [outcome]
  split
  · next hc => exact ⟨fun _ => hc, fun _ => rfl⟩
  · next hc => exact ⟨nofun, fun h => absurd h hc⟩

theorem length_taken_le (kb : Kbd) : kb.taken.length ≤ kb.room := Lines.length_taken_le ..

theorem room_succ (kb : Kbd) : ∃ n, kb.room = n + 1 := ⟨kb.room - 1, by rw [room]; omega⟩

theorem lines_nil (h : kb.ring = []) : kb.outcome = DRV_BLOCK ∧ kb.taken = [] ∧ kb.ended = [] ∧ kb.left = [] := by
  obtain ⟨n, hn⟩ := kb.room_succ
  rw [outcome, taken, ended, left, h, hn]
  exact ⟨if_neg fun hc => absurd (Lines.complete_nil.1 hc) (Nat.succ_ne_zero n), rfl, rfl, rfl⟩

/-- The EOF character comes next. -/
theorem lines_eof (h : kb.ring = c :: R) (he : (c.toNat : Int) = kb.ps.eof) :
    kb.outcome = DRV_DONE ∧ kb.taken = [] ∧ kb.ended = [c] ∧ kb.left = R := by
  obtain ⟨n, hn⟩ := kb.room_succ
  have hcomp : Lines.Complete (IsEof kb.ps.eof) IsNewline (n + 1) (c :: R) := Lines.complete_of_stop (.inr he)
  rw [outcome, taken, ended, left, h, hn]
  exact ⟨if_pos hcomp, if_pos he, if_pos he, if_pos he⟩

/-- A character comes next that ends the line or the room. -/
theorem lines_last (h : kb.ring = c :: R) (he : ¬(c.toNat : Int) = kb.ps.eof)
    (hlast : c = 10 ∨ ¬kb.ps.ch_read + 1 < kb.ps.buf_len) :
    kb.outcome = DRV_DONE ∧ kb.taken = [c] ∧ kb.ended = [] ∧ kb.left = R := by
  obtain ⟨n, hn⟩ := kb.room_succ
  rw [outcome, taken, ended, left, h, hn, Lines.taken, Lines.ended, Lines.left, if_neg he, if_neg he, if_neg he]
  by_cases hnl : c = 10
  · have hcomp : Lines.Complete (IsEof kb.ps.eof) IsNewline (n + 1) (c :: R) := Lines.complete_of_stop (.inl hnl)
    exact ⟨if_pos hcomp, if_pos hnl, if_pos hnl, if_pos hnl⟩
  · obtain rfl : n = 0 := by
      have hge := hlast.resolve_left hnl
      rw [room] at hn
      omega
    exact ⟨if_pos (.inr (by simp)), if_neg hnl, if_neg hnl, if_neg hnl⟩

/-- Another character comes next. -/
theorem lines_cons (h : kb.ring = c :: R) (he : ¬(c.toNat : Int) = kb.ps.eof) (hnl : ¬c = 10)
    (hlt : kb.ps.ch_read + 1 < kb.ps.buf_len) (hr : kb'.ring = R)
    (hps : kb'.ps = { kb.ps with ch_read := kb.ps.ch_read + 1 }) :
    kb.outcome = kb'.outcome ∧ kb.taken = c :: kb'.taken ∧ kb.ended = kb'.ended ∧ kb.left = kb'.left := by
  have hlen : kb'.ps.buf_len = kb.ps.buf_len := by rw [hps]
  have hch : kb'.ps.ch_read = kb.ps.ch_read + 1 := by rw [hps]
  have hroom : kb.room = kb'.room + 1 := by
    rw [room, room, hlen, hch]
    omega
  have hcomp : Lines.Complete (IsEof kb.ps.eof) IsNewline (kb'.room + 1) (c :: R) ↔
      Lines.Complete (IsEof kb.ps.eof) IsNewline kb'.room R := Lines.complete_cons he hnl
  have heof : kb'.ps.eof = kb.ps.eof := by rw [hps]
  rw [outcome, taken, ended, left, h, hroom, outcome, taken, ended, left, hr, heof]
  simp only [hcomp, Lines.taken, Lines.ended, Lines.left, if_neg he, if_neg hnl, and_self]

end Kbd

/-- The process `p` has got what the buffer of `k` holds for its read, and
nothing else has been stored. -/
structure Fed (p : Idx) (k k' : Kernel) (t : List Touch) : Prop extends
    Copied p k k' k.kbd.outcome t k.kbd.taken k.kbd.ended k.kbd.left where
  outside : Mem.SameOutside (k.kbd.ps.buf + BitVec.ofInt 32 k.kbd.ps.ch_read) k.kbd.taken.length k.mem k'.mem
  state : k'.kbd.state = k.kbd.state

theorem Fed.of_copied {p : Idx} {k k' : Kernel} {rc : Int} {t : List Touch} {xs ended rest : List Byte}
    (h : Copied p k k' rc t xs ended rest)
    (hlines : k.kbd.outcome = rc ∧ k.kbd.taken = xs ∧ k.kbd.ended = ended ∧ k.kbd.left = rest)
    (hout : Mem.SameOutside (k.kbd.ps.buf + BitVec.ofInt 32 k.kbd.ps.ch_read) xs.length k.mem k'.mem)
    (hstate : k'.kbd.state = k.kbd.state) : Fed p k k' t := by
  obtain ⟨rfl, rfl, rfl, rfl⟩ := hlines
  exact ⟨h, hout, hstate⟩

/-- The loop ends, after at most one turn for each buffered character and one more. -/
theorem buf_copy_loop_lines (p : Idx) {fuel : Nat} {k : Kernel} (hf : k.kbd.ring.length < fuel) :
    ∃ k' t, buf_copy_loop p fuel k = some (k.kbd.outcome, k', t) ∧ Fed p k k' t := by
  generalize hR : k.kbd.ring = R at hf
  induction R generalizing k fuel with
  | nil =>
    obtain ⟨fuel, rfl⟩ : ∃ m, fuel = m + 1 := ⟨fuel - 1, by simp at hf; omega⟩
    have hlines := Kbd.lines_nil hR
    refine ⟨k, [], ?_, .of_copied (.empty hR) hlines (.refl _ _ _) rfl⟩
    rw [hlines.1, buf_copy_loop, remove_char_nil hR]
  | cons c R ih =>
    simp only [List.length_cons] at hf
    obtain ⟨fuel, rfl⟩ : ∃ m, fuel = m + 1 := ⟨fuel - 1, by omega⟩
    obtain ⟨kb, hrem, hr, hps, hstate⟩ := remove_char_cons hR
    by_cases he : (c.toNat : Int) = k.kbd.ps.eof
    · have hlines := Kbd.lines_eof hR he
      set kb' : Kbd := { kb with ps := { kb.ps with status := kb.ps.status ||| EOF_REACHED } } with hkb
      have hr' : kb'.ring = R := hr
      refine ⟨_, _, ?_, .of_copied (.eof hR he hr' (by rw [hkb, hps])) hlines (.refl _ _ _) hstate⟩
      simp only [buf_copy_loop, hrem, hps, if_pos he]
      rw [hkb, hps, hlines.1]
      rfl
    set kb' : Kbd := { kb with ps := { kb.ps with ch_read := kb.ps.ch_read + 1 } } with hkb
    have hr' : kb'.ring = R := hr
    have hps' : kb'.ps = { k.kbd.ps with ch_read := k.kbd.ps.ch_read + 1 } := by rw [hkb, hps]
    by_cases hlast : c = 10 ∨ ¬k.kbd.ps.ch_read + 1 < k.kbd.ps.buf_len
    · have hlines := Kbd.lines_last hR he hlast
      refine ⟨_, _, ?_, .of_copied (.last hR hr' hps') hlines (.cons (.refl _ _ _)) hstate⟩
      simp only [buf_copy_loop, hrem, hps, if_neg he]
      rw [hkb, hps, hlines.1]
      by_cases hnl : c = 10
      · rw [if_pos hnl]
        rfl
      · rw [if_neg hnl, if_neg (hlast.resolve_left hnl)]
        rfl
    · obtain ⟨hnl, hlt⟩ := not_or.1 hlast
      have hlt := not_not.1 hlt
      have hlines := Kbd.lines_cons hR he hnl hlt hr' hps'
      set addr := k.kbd.ps.buf + BitVec.ofInt 32 k.kbd.ps.ch_read with haddr
      set k1 : Kernel := { k with mem := k.mem.store8 addr c, kbd := kb' } with hk1
      have hR1 : k1.kbd.ring = R := hr
      obtain ⟨k', t, hc, h1⟩ := ih hR1 (Nat.lt_of_succ_lt_succ hf)
      have hlt' : kb'.ps.ch_read < kb'.ps.buf_len := by
        rw [hps']
        exact hlt
      have e : k1.kbd.ps.buf + BitVec.ofInt 32 k1.kbd.ps.ch_read = addr + 1 := by
        have h2 : k1.kbd.ps = { k.kbd.ps with ch_read := k.kbd.ps.ch_read + 1 } := hps'
        rw [h2, haddr, BitVec.add_assoc, BitVec.ofInt_add]
        rfl
      have houtside := h1.outside
      rw [e] at houtside
      have hstate' : k'.kbd.state = k.kbd.state := h1.state.trans hstate
      refine ⟨k', _, ?_, .of_copied (.cons hR hr' hps' hk1 hlt' h1.toCopied) hlines (.cons houtside) hstate'⟩
      simp only [buf_copy_loop, hrem, hps, if_neg he, if_neg hnl, if_pos hlt]
      rw [hk1, hkb, hps] at hc
      rw [hc, hlines.1, hkb, hps]
      rfl

theorem buf_copy_lines {k : Kernel} {p : Idx} (h : k.kbd.ps.pcb = some p) :
    ∃ k' t, buf_copy k = some (k.kbd.outcome, k', t) ∧ Fed p k k' t := by
  rw [buf_copy, h]
  exact buf_copy_loop_lines p (by simp)

theorem buf_copy_spec {k : Kernel} {p : Idx} (h : k.kbd.ps.pcb = some p) :
    ∃ rc k' t xs ended rest, buf_copy k = some (rc, k', t) ∧ Copied p k k' rc t xs ended rest := by
  obtain ⟨k', t, hc, hspec⟩ := buf_copy_lines h
  exact ⟨_, k', t, _, _, _, hc, hspec.toCopied⟩

/-- The buffered characters complete the read that is set up. -/
def ReadEnds (kb : Kbd) : Prop :=
  (∃ c ∈ kb.ring, c = 10 ∨ (c.toNat : Int) = kb.ps.eof) ∨ kb.ps.buf_len - kb.ps.ch_read ≤ kb.ring.length

instance (kb : Kbd) : Decidable (ReadEnds kb) := inferInstanceAs (Decidable (_ ∨ _))

theorem readEnds_of_done {kb : Kbd} (h : kb.outcome = DRV_DONE) : ReadEnds kb := by
  rcases Kbd.outcome_done_iff.1 h with hstop | hlen
  · exact .inl hstop
  · right
    rw [Kbd.room] at hlen
    omega

/-! ## A read -/

/-- The kernel after a read request has been set up. -/
def requested (k : Kernel) (buf buf_len : Word) : Kernel :=
  { k with kbd := { k.kbd with ps := { k.kbd.ps with buf := buf, buf_len := buf_len.toInt, ch_read := 0 } } }

theorem requested_room (k : Kernel) (buf buf_len : Word) :
    (requested k buf buf_len).kbd.room = max 1 buf_len.toInt.toNat := by
  have e : (requested k buf buf_len).kbd.room = max 1 (buf_len.toInt - 0).toNat := rfl
  rw [e, Int.sub_zero]

/-- The read finds neither an EOF character announced nor enough characters. -/
def TooFew (k : Kernel) (buf_len : Word) : Prop := k.kbd.ps.status &&& EOF_IN_BUF = 0 ∧ (k.kbd.size : Int) < buf_len.toInt

instance (k : Kernel) (buf_len : Word) : Decidable (TooFew k buf_len) := inferInstanceAs (Decidable (_ ∧ _))

section
variable {k : Kernel} {p : Idx} {buf buf_len : Word}

theorem keyboard_read_waits (hp : k.kbd.ps.pcb = some p) (h : TooFew k buf_len) : keyboard_read k p buf buf_len =
    some (DRV_BLOCK, { requested k buf buf_len with state := Function.update k.state p .READING }) := by
  rw [keyboard_read, if_neg (not_not.2 hp)]
  exact if_pos h

/-- The two tests of `keyboard_read` together cover every request. -/
theorem not_tooFew (h : ¬TooFew k buf_len) : buf_len.toInt ≤ k.kbd.size ∨ k.kbd.ps.status &&& EOF_IN_BUF ≠ 0 := by
  by_cases he : k.kbd.ps.status &&& EOF_IN_BUF = 0
  · exact .inl (Int.not_lt.1 fun hlt => h ⟨he, hlt⟩)
  · exact .inr he

theorem keyboard_read_eof (hp : k.kbd.ps.pcb = some p) (h : ¬TooFew k buf_len)
    (hr : k.kbd.ps.status &&& EOF_REACHED ≠ 0) : keyboard_read k p buf buf_len =
    some (DRV_DONE, { requested k buf buf_len with irc := Function.update k.irc p 0 }) := by
  rw [keyboard_read, if_neg (not_not.2 hp)]
  exact (if_neg h).trans ((if_pos (not_tooFew h)).trans (if_pos hr))

/-- Copying that does not complete the read ends in `abort()`. -/
theorem keyboard_read_copies (hp : k.kbd.ps.pcb = some p) (h : ¬TooFew k buf_len)
    (hr : k.kbd.ps.status &&& EOF_REACHED = 0) (buf : Word) : ∃ k' t, Fed p (requested k buf buf_len) k' t ∧
      keyboard_read k p buf buf_len =
        if (requested k buf buf_len).kbd.outcome = DRV_DONE then some (DRV_DONE, k') else none := by
  obtain ⟨k', t, hcopy, hspec⟩ := buf_copy_lines (k := requested k buf buf_len) hp
  refine ⟨k', t, hspec, ?_⟩
  rw [keyboard_read, if_neg (not_not.2 hp)]
  refine (if_neg h).trans ((if_pos (not_tooFew h)).trans ((if_neg (not_not.2 hr)).trans ?_))
  change (buf_copy (requested k buf buf_len)).bind _ = _
  rw [hcopy]
  rfl

/-- A read that copies and returns has completed. -/
theorem keyboard_read_fed {k' : Kernel} {rc : Int} (hp : k.kbd.ps.pcb = some p) (hw : ¬TooFew k buf_len)
    (hr : k.kbd.ps.status &&& EOF_REACHED = 0) (h : keyboard_read k p buf buf_len = some (rc, k')) :
    rc = DRV_DONE ∧ (requested k buf buf_len).kbd.outcome = DRV_DONE ∧ ∃ t, Fed p (requested k buf buf_len) k' t := by
  obtain ⟨k1, t, hfed, heq⟩ := keyboard_read_copies hp hw hr buf
  rw [heq] at h
  split at h
  · next hout =>
    cases h
    exact ⟨rfl, hout, t, hfed⟩
  · cases h

end

/-- A read blocks, or returns nothing after the end of the file, or returns
what is buffered. -/
theorem keyboard_read_cases {k k' : Kernel} {p : Idx} {buf buf_len : Word} {rc : Int}
    (h : keyboard_read k p buf buf_len = some (rc, k')) : k.kbd.ps.pcb = some p ∧
    ((rc = DRV_BLOCK ∧ k.kbd.ps.status &&& EOF_IN_BUF = 0 ∧
      k' = { requested k buf buf_len with state := Function.update k.state p .READING }) ∨
    (rc = DRV_DONE ∧ k.kbd.ps.status &&& EOF_REACHED ≠ 0 ∧
      k' = { requested k buf buf_len with irc := Function.update k.irc p 0 }) ∨
    (rc = DRV_DONE ∧ k.kbd.ps.status &&& EOF_REACHED = 0 ∧
      ∃ t xs ended rest, Copied p (requested k buf buf_len) k' rc t xs ended rest)) := by
  have hp : k.kbd.ps.pcb = some p := by
    by_contra hne
    rw [keyboard_read, if_pos hne] at h
    cases h
  refine ⟨hp, ?_⟩
  by_cases hw : TooFew k buf_len
  · rw [keyboard_read_waits hp hw] at h
    cases h
    exact .inl ⟨rfl, hw.1, rfl⟩
  by_cases hr : k.kbd.ps.status &&& EOF_REACHED = 0
  · obtain ⟨rfl, hout, t, hfed⟩ := keyboard_read_fed hp hw hr h
    exact .inr (.inr ⟨rfl, hr, t, _, _, _, hout ▸ hfed.toCopied⟩)
  · rw [keyboard_read_eof hp hw hr] at h
    cases h
    exact .inr (.inl ⟨rfl, hr, rfl⟩)

/-- What a read does to the driver. -/
theorem keyboard_read_kbd {k k' : Kernel} {p : Idx} {buf buf_len : Word} {rc : Int}
    (h : keyboard_read k p buf buf_len = some (rc, k')) : k'.kbd = (requested k buf buf_len).kbd ∨
      ¬TooFew k buf_len ∧ k.kbd.ps.status &&& EOF_REACHED = 0 ∧ ∃ t, Fed p (requested k buf buf_len) k' t := by
  have hp := (keyboard_read_cases h).1
  by_cases hw : TooFew k buf_len
  · rw [keyboard_read_waits hp hw] at h
    cases h
    exact .inl rfl
  by_cases hr : k.kbd.ps.status &&& EOF_REACHED = 0
  · exact .inr ⟨hw, hr, (keyboard_read_fed hp hw hr h).2.2⟩
  · rw [keyboard_read_eof hp hw hr] at h
    cases h
    exact .inl rfl

/-! ## The interrupt -/

/-- The kernel after the scan codes have been read. -/
def filled (k : Kernel) (codes : List Byte) : Kernel := { k with kbd := keyboard_fill k.kbd codes }

theorem filled_ps (k : Kernel) (codes : List Byte) :
    ∃ status, (filled k codes).kbd.ps = { k.kbd.ps with status := status } := by
  obtain ⟨status, hps, -⟩ := keyboard_fill_ps k.kbd codes
  exact ⟨status, hps⟩

/-- Without a request the interrupt only fills the buffer. -/
theorem keyboard_lower_fills {k : Kernel} (hlt : ¬k.kbd.ps.ch_read < k.kbd.ps.buf_len) (codes : List Byte) :
    keyboard_lower k codes = some (filled k codes, []) := by
  obtain ⟨status, hps⟩ := filled_ps k codes
  unfold keyboard_lower
  change (if (filled k codes).kbd.ps.ch_read < (filled k codes).kbd.ps.buf_len then _ else _) = _
  rw [hps, if_neg hlt]
  rfl

/-- With a request it copies to the process that has the device open, and
readies it when the read is complete. -/
theorem keyboard_lower_lines {k : Kernel} {p : Idx} (hp : k.kbd.ps.pcb = some p)
    (hlt : k.kbd.ps.ch_read < k.kbd.ps.buf_len) (codes : List Byte) :
    ∃ k1 t, Fed p (filled k codes) k1 t ∧
      keyboard_lower k codes =
        if (filled k codes).kbd.outcome = DRV_DONE then (ready k1 p).map fun k' => (k', t ++ [.ready p])
        else some (k1, t) := by
  obtain ⟨status, hps⟩ := filled_ps k codes
  have hp' : (filled k codes).kbd.ps.pcb = some p := by rw [hps]; exact hp
  obtain ⟨k1, t, hcopy, hspec⟩ := buf_copy_lines hp'
  refine ⟨k1, t, hspec, ?_⟩
  have hp1 : k1.kbd.ps.pcb = some p := by rw [hspec.ps]; exact hp'
  unfold keyboard_lower
  change (if (filled k codes).kbd.ps.ch_read < (filled k codes).kbd.ps.buf_len then
    (buf_copy (filled k codes)).bind _ else _) = _
  rw [if_pos (by rw [hps]; exact hlt), hcopy, Option.bind_some]
  simp only []
  split
  · rw [hp1]
    change (ready k1 p).bind _ = _
    cases ready k1 p <;> rfl
  · rfl

/-- An interrupt with a request has copied, and the reader is ready or goes on waiting. -/
theorem keyboard_lower_fed {k k' : Kernel} {p : Idx} {codes : List Byte} {t : List Touch} (hp : k.kbd.ps.pcb = some p)
    (hlt : k.kbd.ps.ch_read < k.kbd.ps.buf_len) (h : keyboard_lower k codes = some (k', t)) :
    ∃ k1 t1, Fed p (filled k codes) k1 t1 ∧
      ((¬(filled k codes).kbd.outcome = DRV_DONE ∧ k' = k1 ∧ t = t1) ∨
      ((filled k codes).kbd.outcome = DRV_DONE ∧ ready k1 p = some k' ∧ t = t1 ++ [.ready p])) := by
  obtain ⟨k1, t1, hfed, heq⟩ := keyboard_lower_lines hp hlt codes
  refine ⟨k1, t1, hfed, ?_⟩
  rw [heq] at h
  split at h
  · next hout =>
    obtain ⟨k2, hready, h⟩ := Option.map_eq_some_iff.1 h
    cases h
    exact .inr ⟨hout, hready, rfl⟩
  · next hout =>
    cases h
    exact .inl ⟨hout, rfl, rfl⟩

/-- An interrupt only fills the buffer, or it also copies to the process that
has the device open, and readies it when its read is done. -/
theorem keyboard_lower_cases {k k' : Kernel} {codes : List Byte} {t : List Touch}
    (h : keyboard_lower k codes = some (k', t)) :
    (¬k.kbd.ps.ch_read < k.kbd.ps.buf_len ∧ k' = filled k codes ∧ t = []) ∨
    (k.kbd.ps.ch_read < k.kbd.ps.buf_len ∧ ∃ p k1 rc t1 xs ended rest, k.kbd.ps.pcb = some p ∧
      Copied p (filled k codes) k1 rc t1 xs ended rest ∧
      (rc = DRV_BLOCK ∧ k' = k1 ∧ t = t1 ∨ rc = DRV_DONE ∧ ready k1 p = some k' ∧ t = t1 ++ [.ready p])) := by
  by_cases hlt : k.kbd.ps.ch_read < k.kbd.ps.buf_len
  · refine .inr ⟨hlt, ?_⟩
    cases hp : k.kbd.ps.pcb with
    | none =>
      -- nobody to copy to
      obtain ⟨status, hps⟩ := filled_ps k codes
      unfold keyboard_lower at h
      change (if (filled k codes).kbd.ps.ch_read < (filled k codes).kbd.ps.buf_len then
        (buf_copy (filled k codes)).bind _ else _) = _ at h
      have hnone : (filled k codes).kbd.ps.pcb = none := by rw [hps]; exact hp
      rw [if_pos (by rw [hps]; exact hlt), buf_copy, hnone] at h
      cases h
    | some p =>
      obtain ⟨k1, t1, hfed, hend⟩ := keyboard_lower_fed hp hlt h
      refine ⟨p, k1, _, t1, _, _, _, rfl, hfed.toCopied, ?_⟩
      rcases hend with ⟨hout, hk⟩ | hdone
      · rcases hfed.outcome with h' | h'
        · exact .inl ⟨h'.1, hk⟩
        · exact absurd h'.1 hout
      · exact .inr hdone
  · rw [keyboard_lower_fills hlt] at h
    cases h
    exact .inl ⟨hlt, rfl, rfl⟩

/-- What an interrupt does to the driver. -/
theorem keyboard_lower_kbd {k k' : Kernel} {codes : List Byte} {t : List Touch}
    (h : keyboard_lower k codes = some (k', t)) : k'.kbd = (filled k codes).kbd ∨
      ∃ p k1 t1, k.kbd.ps.pcb = some p ∧ Fed p (filled k codes) k1 t1 ∧ k'.kbd = k1.kbd := by
  rcases keyboard_lower_cases h with ⟨-, rfl, -⟩ | ⟨hlt, p, -, -, -, -, -, -, hp, -, -⟩
  · exact .inl rfl
  obtain ⟨k1, t1, hfed, hend⟩ := keyboard_lower_fed hp hlt h
  refine .inr ⟨p, k1, t1, hp, hfed, ?_⟩
  rcases hend with ⟨-, rfl, -⟩ | ⟨-, hready, -⟩
  · rfl
  · rw [ready_eq hready]

theorem keyboard_lower_eq {k k' : Kernel} {codes : List Byte} {t : List Touch} (h : keyboard_lower k codes = some (k', t)) :
    k' = { k with
      mem := k'.mem
      irc := k'.irc
      kbd := k'.kbd
      state := k'.state
      next := k'.next
      ready_queue := k'.ready_queue } := by
  rcases keyboard_lower_cases h with ⟨-, rfl, -⟩ | ⟨-, p, k1, rc, t1, xs, ended, rest, -, hc, hend⟩
  · rfl
  have e : k1 = { k with mem := k1.mem, irc := k1.irc, kbd := k1.kbd } := hc.frame
  rcases hend with ⟨-, rfl, -⟩ | ⟨-, hr, -⟩
  · rw [e]
  · rw [ready_eq hr, e]

/-- An interrupt changes no state but that of the process it readies. -/
theorem keyboard_lower_state {k k' : Kernel} {codes : List Byte} {t : List Touch}
    (h : keyboard_lower k codes = some (k', t)) (i : Idx) : k'.state i = k.state i ∨ k'.state i = .READY := by
  rcases keyboard_lower_cases h with ⟨-, rfl, -⟩ | ⟨-, p, k1, rc, t1, xs, ended, rest, -, hc, hend⟩
  · exact .inl rfl
  have hstate : k1.state = k.state := by
    rw [hc.frame]
    rfl
  rcases hend with ⟨-, rfl, -⟩ | ⟨-, hr, -⟩
  · exact .inl (by rw [hstate])
  · rw [ready_eq hr]
    by_cases hip : i = p
    · subst hip
      exact .inr (Function.update_self ..)
    · exact .inl ((Function.update_of_ne hip ..).trans (by rw [hstate]))

/-- An interrupt readies nobody unless it completes the read. -/
theorem keyboard_lower_idle {k k' : Kernel} {codes : List Byte} {t : List Touch}
    (h : keyboard_lower k codes = some (k', t))
    (hopen : ¬(k.kbd.ps.ch_read < k.kbd.ps.buf_len ∧ ReadEnds (keyboard_fill k.kbd codes))) :
    k' = { k with mem := k'.mem, irc := k'.irc, kbd := k'.kbd } := by
  rcases keyboard_lower_cases h with ⟨-, rfl, -⟩ | ⟨hlt, p, -, -, -, -, -, -, hp, -, -⟩
  · rfl
  obtain ⟨k1, t1, hfed, ⟨-, rfl, -⟩ | ⟨hout, -⟩⟩ := keyboard_lower_fed hp hlt h
  · rw [hfed.frame]
    rfl
  · exact absurd ⟨hlt, readEnds_of_done hout⟩ hopen

end Xeros
