import Xeros.Kbd.Underway
import Xeros.Kbd.Stream
/-!
# A read that blocks

The characters a blocked read is due are those that were buffered when it
blocked and those that interrupts accept afterwards. The interrupt that makes
them complete readies the reader, which gets the shortest prefix that ends the
read, however the characters were spread over the interrupts (`blocked_read`).
-/

namespace Xeros

open Links Kernel Runs

/-! ## The system -/

/-- A kernel in which a read is outstanding, and the characters it is due. -/
structure BlockedSys where
  kernel : Kernel
  word : List Byte

inductive BlockedEvent where
  /-- An interrupt with scan codes waiting. -/
  | key (codes : List Byte)
  /-- What goes on meanwhile. -/
  | other (k : Kernel)

def blockedStep : BlockedEvent → BlockedSys → Option BlockedSys
  | .key codes, s => do
    let (k, _) ← keyboard_lower s.kernel codes
    some { kernel := k, word := s.word ++ accepted s.kernel.kbd codes }
  | .other k, s => some { s with kernel := k }

/-- Process `p`, on no list, has called `keyboard_read`, which blocks. -/
def BlockedInit (p : Idx) (buf buf_len : Word) (s : BlockedSys) : Prop :=
  ∃ k f, Family k.links f ∧ (∀ q, p ∉ f q) ∧ keyboard_read k p buf buf_len = some (DRV_BLOCK, s.kernel) ∧
    s.word = k.kbd.ring

/-- Others run while the reader waits: nobody readies it, calls the driver or
writes what has been copied. -/
structure Undisturbed (p : Idx) (k k' : Kernel) : Prop where
  kbd : k'.kbd = k.kbd
  waits : k'.state p = .READING
  copied : k'.mem.bytes k.kbd.ps.buf k.kbd.ps.ch_read.toNat = k.mem.bytes k.kbd.ps.buf k.kbd.ps.ch_read.toNat
  lists : ∃ f, Family k'.links f ∧ ∀ q, p ∉ f q

/-- The read has not ended yet. -/
def StillBlocked (p : Idx) (s : BlockedSys) : BlockedEvent → Prop
  | .key _ => s.kernel.state p = .READING
  | .other k => s.kernel.state p = .READING ∧ Undisturbed p s.kernel k

/-! ## The invariant -/

/-- The read is under way, and the process can be made ready. -/
structure BlockedInv (p : Idx) (buf buf_len : Word) (s : BlockedSys) (xs : List Byte) : Prop where
  underway : Underway p buf buf_len s.kernel s.word xs
  lists : ∃ f, Family s.kernel.links f ∧ ∀ q, p ∉ f q

namespace BlockedInv
variable {p : Idx} {buf buf_len : Word} {s : BlockedSys} {xs : List Byte}

theorem init (hn : 1 ≤ buf_len.toInt) (h : BlockedInit p buf buf_len s) : BlockedInv p buf buf_len s [] := by
  obtain ⟨k, f, hlists, hun, hread, hword⟩ := h
  obtain ⟨kernel, word⟩ := s
  obtain ⟨hp, ⟨-, -, e⟩ | ⟨hrc, -⟩ | ⟨hrc, -⟩⟩ := keyboard_read_cases hread
  · simp only [] at e hword
    subst e hword
    obtain ⟨h1, h2, h3, h4, h5, h6, h7⟩ := Underway.requested hn hp buf
    exact ⟨⟨h1, h2, h3, h4, h5, h6, h7⟩, f, hlists, hun⟩
  · cases hrc
  · cases hrc

theorem other {k : Kernel} (h : BlockedInv p buf buf_len s xs) (hk : Undisturbed p s.kernel k) :
    BlockedInv p buf buf_len { s with kernel := k } xs := by
  obtain ⟨howner, hbuffer, hlen, hdue, hch, hstored, hinc⟩ := h.underway
  have hcopied := hk.copied
  rw [hch, hbuffer, Int.toNat_natCast, hstored] at hcopied
  have hkbd := hk.kbd
  exact ⟨⟨hkbd ▸ howner, hkbd ▸ hbuffer, hkbd ▸ hlen, hkbd ▸ hdue, hkbd ▸ hch, hcopied, hkbd ▸ hinc⟩, hk.lists⟩

/-- An interrupt readies the reader exactly when the characters are complete
with those it accepts, and the read has then got what it is due. -/
theorem key (h : BlockedInv p buf buf_len s xs) (hwait : s.kernel.state p = .READING) (codes : List Byte) :
    ∃ k t, keyboard_lower s.kernel codes = some (k, t) ∧
      if Lines.Complete (IsEof s.kernel.kbd.ps.eof) IsNewline buf_len.toInt.toNat
          (s.word ++ accepted s.kernel.kbd codes) then
        k.state p = .READY ∧ .ready p ∈ t ∧ ∃ xs,
          ReadResult p buf buf_len.toInt.toNat s.kernel.kbd.ps.eof (s.word ++ accepted s.kernel.kbd codes) xs k ∧
            Mem.SameOutside buf xs.length s.kernel.mem k.mem
      else
        k.state p = .READING ∧ .ready p ∉ t ∧
          Mem.SameOutside buf (s.word ++ accepted s.kernel.kbd codes).length s.kernel.mem k.mem ∧
          BlockedInv p buf buf_len { kernel := k, word := s.word ++ accepted s.kernel.kbd codes }
            (s.word ++ accepted s.kernel.kbd codes) := by
  have hf := h.underway.filled codes
  obtain ⟨status, hps⟩ := filled_ps s.kernel codes
  have heof : (filled s.kernel codes).kbd.ps.eof = s.kernel.kbd.ps.eof := by rw [hps]
  obtain ⟨k1, t, hk, heq⟩ := keyboard_lower_lines h.underway.owner h.underway.lt codes
  have hiff := hf.lines.2.2.2
  rw [heof] at hiff
  obtain ⟨f, hlists, hun⟩ := h.lists
  have hlinks : Family k1.links f := by
    rw [hk.frame]
    exact hlists
  by_cases hcomp : Lines.Complete (IsEof s.kernel.kbd.ps.eof) IsNewline buf_len.toInt.toNat
      (s.word ++ accepted s.kernel.kbd codes)
  · obtain ⟨k, hready, -⟩ := ready_spec hlinks hun
    rw [if_pos (hiff.1 hcomp), hready] at heq
    refine ⟨k, t ++ [.ready p], heq.trans rfl, ?_⟩
    rw [if_pos hcomp]
    have hresult := hf.result hk (by rwa [heof])
    rw [heof] at hresult
    have e := ready_eq hready
    have hstate : k.state p = .READY := by
      rw [e]
      exact Function.update_self ..
    refine ⟨hstate, by simp, _, ⟨hresult.stops, hresult.shortest, ?_, ?_, ?_⟩, ?_⟩
    all_goals rw [e]
    · exact hresult.stored
    · exact hresult.irc
    · exact hresult.rest
    · exact (hf.copied hk).2.2
  · rw [if_neg fun hd => hcomp (hiff.2 hd)] at heq
    refine ⟨k1, t, heq, ?_⟩
    rw [if_neg hcomp]
    obtain ⟨hunder, houtside⟩ := hf.blocked hk (by rwa [heof])
    refine ⟨?_, fun hm => hk.touches _ hm, houtside, hunder, f, hlinks, hun⟩
    rw [hk.frame]
    exact hwait

end BlockedInv

/-! ## Results -/

theorem blocked_inv {p : Idx} {buf buf_len : Word} {s : BlockedSys} (hn : 1 ≤ buf_len.toInt)
    (hs : Reach blockedStep (BlockedInit p buf buf_len) (StillBlocked p) s) (hwait : s.kernel.state p = .READING) :
    ∃ xs, BlockedInv p buf buf_len s xs := by
  refine hs.inv (fun s => s.kernel.state p = .READING → ∃ xs, BlockedInv p buf buf_len s xs)
    (fun s h _ => ⟨[], .init hn h⟩) (fun s e s' ih hok ht hwait => ?_) hwait
  cases e with
  | key codes =>
    obtain ⟨xs, h⟩ := ih hok
    obtain ⟨k, t, hl, hend⟩ := h.key hok codes
    obtain ⟨⟨k', t'⟩, hl', ht⟩ := Option.bind_eq_some_iff.1 ht
    cases ht
    cases hl.symm.trans hl'
    split at hend
    · rw [hend.1] at hwait
      cases hwait
    · exact ⟨_, hend.2.2.2⟩
  | other k =>
    cases ht
    obtain ⟨xs, h⟩ := ih hok.1
    exact ⟨xs, h.other hok.2⟩

/-- However the characters arrive, the reader is readied by the first interrupt
that completes them, and gets the shortest prefix that ends its read. -/
theorem blocked_read {p : Idx} {buf buf_len : Word} {s : BlockedSys} (hn : 1 ≤ buf_len.toInt)
    (hs : Reach blockedStep (BlockedInit p buf buf_len) (StillBlocked p) s) (hwait : s.kernel.state p = .READING)
    (codes : List Byte) : ∃ k t, keyboard_lower s.kernel codes = some (k, t) ∧
      if Lines.Complete (IsEof s.kernel.kbd.ps.eof) IsNewline buf_len.toInt.toNat
          (s.word ++ accepted s.kernel.kbd codes) then
        k.state p = .READY ∧ .ready p ∈ t ∧ ∃ xs,
          ReadResult p buf buf_len.toInt.toNat s.kernel.kbd.ps.eof (s.word ++ accepted s.kernel.kbd codes) xs k ∧
            Mem.SameOutside buf xs.length s.kernel.mem k.mem
      else
        k.state p = .READING ∧ .ready p ∉ t ∧
          Mem.SameOutside buf (s.word ++ accepted s.kernel.kbd codes).length s.kernel.mem k.mem := by
  obtain ⟨xs, h⟩ := blocked_inv hn hs hwait
  obtain ⟨k, t, hl, hend⟩ := h.key hwait codes
  refine ⟨k, t, hl, ?_⟩
  split
  · next hcomp =>
    rw [if_pos hcomp] at hend
    exact hend
  · next hcomp =>
    rw [if_neg hcomp] at hend
    exact ⟨hend.1, hend.2.1, hend.2.2.1⟩

/-- Process 0 has opened the keyboard and waits for three characters. -/
def blocked_0 : BlockedSys :=
  { kernel :=
      { requested opened_by_0.kernel 0x1000 3 with state := Function.update opened_by_0.kernel.state 0 .READING }
    word := [] }

theorem blocked_0_init : BlockedInit 0 0x1000 3 blocked_0 :=
  ⟨opened_by_0.kernel, _, alone_lists, by simp, keyboard_read_waits rfl (by decide), rfl⟩

/-- The first key leaves the process waiting, the end of the line readies it. -/
theorem blocked_read_2_interrupts : ∃ s, Reach blockedStep (BlockedInit 0 0x1000 3) (StillBlocked 0) s ∧
    s.word = [97] ∧ ∃ k t, keyboard_lower s.kernel [keyEnter] = some (k, t) ∧
      if Lines.Complete (IsEof s.kernel.kbd.ps.eof) IsNewline 3 (s.word ++ accepted s.kernel.kbd [keyEnter]) then
        k.state 0 = .READY ∧ .ready 0 ∈ t ∧ ∃ xs,
          ReadResult 0 0x1000 3 s.kernel.kbd.ps.eof (s.word ++ accepted s.kernel.kbd [keyEnter]) xs k ∧
            Mem.SameOutside 0x1000 xs.length s.kernel.mem k.mem
      else
        k.state 0 = .READING ∧ .ready 0 ∉ t ∧
          Mem.SameOutside 0x1000 (s.word ++ accepted s.kernel.kbd [keyEnter]).length s.kernel.mem k.mem := by
  have h0 : Reach blockedStep (BlockedInit 0 0x1000 3) (StillBlocked 0) blocked_0 := .start blocked_0_init
  have h1 : StillBlocked 0 blocked_0 (.key [keyA]) := rfl
  obtain ⟨s, hstep, hs⟩ : ∃ s, blockedStep (.key [keyA]) blocked_0 = some s ∧ s.word = [97] ∧
      s.kernel.state 0 = .READING :=
    ⟨_, (Option.some_get (by decide +kernel)).symm, by decide +kernel, by decide +kernel⟩
  exact ⟨s, .next h0 h1 hstep, hs.1, blocked_read (by decide) (.next h0 h1 hstep) hs.2 [keyEnter]⟩

end Xeros
