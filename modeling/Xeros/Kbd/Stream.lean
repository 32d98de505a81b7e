import Xeros.Kbd.Copy
import Xeros.Lib.Runs
/-!
# The keyboard as a stream

One process has the keyboard open and reads from it while interrupts come in.
`Stream` says where every accepted character is: returned by a read, copied
for the read that is outstanding, or in the buffer. It holds in every run in
which no interrupt copies while no read is outstanding (`stream_kept`).
-/

namespace Xeros

open Links Kernel Runs

/-! ## The system -/

/-- `accepted` are the characters `insert_char` took, `returned` those the
completed reads were given, an EOF character among them. -/
structure StreamSys where
  kernel : Kernel
  accepted : List Byte
  returned : List Byte

inductive StreamEvent where
  /-- An interrupt with scan codes waiting. -/
  | key (codes : List Byte)
  /-- The owner reads. -/
  | read (buf buf_len : Word)
  /-- The first ready process is run. -/
  | run

/-- What the read that ends between `k` and `k'` gave to `p`. -/
def readResult (k k' : Kernel) (p : Idx) : List Byte :=
  k'.mem.bytes k'.kbd.ps.buf (k'.irc p).toNat ++
    if k.kbd.ps.status &&& EOF_REACHED = 0 ∧ k'.kbd.ps.status &&& EOF_REACHED ≠ 0 then [BitVec.ofInt 8 k.kbd.ps.eof] else []

def streamStep (p : Idx) : StreamEvent → StreamSys → Option StreamSys
  | .key codes, s => do
    let (k, t) ← keyboard_lower s.kernel codes
    let returned :=
      if s.kernel.state p = .READING ∧ .ready p ∈ t then s.returned ++ readResult s.kernel k p else s.returned
    some { kernel := k, accepted := s.accepted ++ accepted s.kernel.kbd codes, returned := returned }
  | .read buf buf_len, s =>
    if s.kernel.state p = .RUNNING ∧ 1 ≤ buf_len.toInt then do
      let (rc, k) ← keyboard_read s.kernel p buf buf_len
      if rc = DRV_BLOCK then some { s with kernel := k }
      else do
        let k' ← ready k p
        some { s with kernel := k', returned := s.returned ++ readResult s.kernel k' p }
    else none
  | .run, s =>
    match next s.kernel with
    | (none, k) => some { s with kernel := k }
    | (some q, k) => some { s with kernel := { k with state := Function.update k.state q .RUNNING } }

/-- The running process `p`, on no list, has just opened the keyboard and has
chosen an EOF character. -/
def StreamInit (p : Idx) (s : StreamSys) : Prop :=
  ∃ f k k' echo eof, Family k.links f ∧ (∀ q, p ∉ f q) ∧ k.state p = .RUNNING ∧ open_with_echo echo k p = (DRV_DONE, k') ∧
    s = { kernel := { k' with kbd := { k'.kbd with ps := { k'.kbd.ps with eof := eof } } }, accepted := [], returned := [] }

/-- What has been copied for the read of `p` that is outstanding. -/
def outstanding (k : Kernel) (p : Idx) : List Byte :=
  if k.state p = .READING then k.mem.bytes k.kbd.ps.buf k.kbd.ps.ch_read.toNat else []

/-- The interrupt with scan codes `codes` copies nothing, or copies to a process
that waits for it. -/
def ReaderWaits (k : Kernel) (codes : List Byte) : Prop :=
  k.kbd.ps.ch_read < k.kbd.ps.buf_len → (keyboard_fill k.kbd codes).size ≠ 0 →
    ∀ p, k.kbd.ps.pcb = some p → k.state p = .READING

instance (k : Kernel) (codes : List Byte) : Decidable (ReaderWaits k codes) :=
  inferInstanceAs (Decidable (_ → _ → _))

structure Stream (p : Idx) (s : StreamSys) : Prop where
  /-- Every accepted character is in its place, in order and once. -/
  kept : s.accepted = s.returned ++ outstanding s.kernel p ++ s.kernel.kbd.ring
  /-- Without a read outstanding nothing leaves the buffer. -/
  idle : ∀ codes k' t, s.kernel.state p ≠ .READING → ReaderWaits s.kernel codes →
    keyboard_lower s.kernel codes = some (k', t) → k'.kbd.ring = s.kernel.kbd.ring ++ accepted s.kernel.kbd codes

/-! ## The invariant -/

structure StreamInv (p : Idx) (s : StreamSys) (f : Queue → List Idx) : Prop where
  lists : Family s.kernel.links f
  unlisted : s.kernel.state p = .RUNNING ∨ s.kernel.state p = .READING → ∀ q, p ∉ f q
  owner : s.kernel.kbd.ps.pcb = some p
  ch_read : 0 ≤ s.kernel.kbd.ps.ch_read
  buf_len : s.kernel.kbd.ps.buf_len < 2 ^ 31
  known : s.kernel.kbd.EofKnown
  reading : s.kernel.state p = .READING → s.kernel.kbd.ps.status &&& EOF_REACHED = 0
  kept : s.accepted = s.returned ++ outstanding s.kernel p ++ s.kernel.kbd.ring

namespace Copied
variable {p : Idx} {k k' : Kernel} {rc : Int} {t : List Touch} {xs ended rest : List Byte}

/-- What a read that ends here returns: the bytes copied before and now, and the EOF character. -/
theorem readResult (h : Copied p k k' DRV_DONE t xs ended rest) (h0 : 0 ≤ k.kbd.ps.ch_read)
    (hlt : k.kbd.ps.ch_read < k.kbd.ps.buf_len) (hlen : k.kbd.ps.buf_len < 2 ^ 31)
    (hr : k.kbd.ps.status &&& EOF_REACHED = 0) :
    Xeros.readResult k k' p = k.mem.bytes k.kbd.ps.buf k.kbd.ps.ch_read.toNat ++ xs ++ ended := by
  have hbuf : k'.kbd.ps.buf = k.kbd.ps.buf := by rw [h.ps]
  have hb := h.bound hlt
  have hc := h.count
  rcases h.outcome with ⟨hrc, -⟩ | ⟨-, -, hirc, hend⟩
  · cases hrc
  have hn : (k'.irc p).toNat = k'.kbd.ps.ch_read.toNat := by
    rw [hirc, Function.update_self, BitVec.toNat_ofInt]
    omega
  rw [Xeros.readResult, hn, hbuf, h.stored h0 hlt hlen]
  congr 1
  rcases hend with ⟨he, hst⟩ | ⟨c, he, hc, hst⟩
  · rw [hst, if_neg (fun hh => hh.2 hr), he]
  · rw [hst, if_pos ⟨hr, eof_reached_set _⟩, he, ← hc, BitVec.ofInt_natCast, BitVec.ofNat_toNat, BitVec.setWidth_eq]

end Copied

theorem readResult_filled (k k' : Kernel) (p : Idx) (codes : List Byte) :
    readResult (filled k codes) k' p = readResult k k' p := by
  obtain ⟨status, hps, hreach, -⟩ := keyboard_fill_ps k.kbd codes
  have heof : (filled k codes).kbd.ps.eof = k.kbd.ps.eof := by rw [filled, hps]
  have hst : (filled k codes).kbd.ps.status &&& EOF_REACHED = k.kbd.ps.status &&& EOF_REACHED := by
    rw [filled, hps, ← hreach]
  rw [readResult, readResult, heof, hst]

theorem readResult_ready {k k1 k' : Kernel} {p q : Idx} (h : ready k1 q = some k') :
    readResult k k' p = readResult k k1 p := by
  rw [ready_eq h]
  rfl

namespace StreamInv
variable {p : Idx} {s : StreamSys} {f : Queue → List Idx} {codes : List Byte} {k' : Kernel} {t : List Touch}

/-- The scan codes have been read. -/
theorem filled (h : StreamInv p s f) (codes : List Byte) :
    StreamInv p { s with
      kernel := Xeros.filled s.kernel codes, accepted := s.accepted ++ accepted s.kernel.kbd codes } f := by
  obtain ⟨status, hps, hreach, hknown⟩ := keyboard_fill_ps s.kernel.kbd codes
  have hring := keyboard_fill_ring s.kernel.kbd codes
  refine ⟨h.lists, h.unlisted, ?_, ?_, ?_, hknown h.known, fun hr => ?_, ?_⟩
  · simp only [Xeros.filled, hps]
    exact h.owner
  · simp only [Xeros.filled, hps]
    exact h.ch_read
  · simp only [Xeros.filled, hps]
    exact h.buf_len
  · simp only [Xeros.filled, hps]
    exact hreach.trans (h.reading hr)
  · have hout : outstanding (Xeros.filled s.kernel codes) p = outstanding s.kernel p := by
      simp only [outstanding, Xeros.filled, hps]
    simp only [hout]
    rw [Xeros.filled, hring, h.kept, List.append_assoc, List.append_assoc]

/-- The process is made ready when its read has ended. -/
theorem readied {k1 : Kernel} {returned : List Byte} (h : Family k1.links f) (hp : ∀ q, p ∉ f q)
    (hr : ready k1 p = some k') (howner : k1.kbd.ps.pcb = some p) (hch : 0 ≤ k1.kbd.ps.ch_read)
    (hlen : k1.kbd.ps.buf_len < 2 ^ 31) (hk : k1.kbd.EofKnown) {acc : List Byte} (hkept : acc = returned ++ k1.kbd.ring) :
    StreamInv p { kernel := k', accepted := acc, returned := returned } (Function.update f .ready (f .ready ++ [p])) := by
  obtain ⟨k2, hr2, -, hlists⟩ := ready_spec h hp
  obtain rfl : k2 = k' := Option.some.inj (hr2.symm.trans hr)
  have e := ready_eq hr
  have hstate : k2.state p = .READY := by
    rw [e]
    exact Function.update_self ..
  have hkbd : k2.kbd = k1.kbd := by rw [e]
  refine ⟨hlists, ?_, ?_, ?_, ?_, ?_, ?_, ?_⟩
  · simp [hstate]
  · simpa only [hkbd] using howner
  · simpa only [hkbd] using hch
  · simpa only [hkbd] using hlen
  · simpa only [hkbd] using hk
  · simp [hstate]
  · simp [outstanding, hstate, hkept, hkbd]

/-- Copying empties the buffer and ends no read. -/
theorem copied {k1 : Kernel} {xs ended rest : List Byte} (h : StreamInv p s f)
    (hc : Copied p s.kernel k1 DRV_BLOCK t xs ended rest) (hout : outstanding k1 p = outstanding s.kernel p ++ xs) :
    StreamInv p { s with kernel := k1 } f := by
  have hcount := hc.count
  have h0 := h.ch_read
  have htaken := hc.taken
  rcases hc.outcome with ⟨-, hended, hrest, hst, -⟩ | ⟨hd, -⟩
  · rw [hended, hrest, List.append_nil, List.append_nil] at htaken
    refine ⟨?_, ?_, ?_, ?_, ?_, hc.eofKnown h.known, ?_, ?_⟩
    · rw [hc.frame]
      exact h.lists
    · rw [hc.frame]
      exact h.unlisted
    · rw [hc.ps]
      exact h.owner
    · simp only [] at h0 ⊢
      omega
    · rw [hc.ps]
      exact h.buf_len
    · simp only [hst]
      rw [hc.frame]
      exact h.reading
    · simp only [hout, hc.left, hrest]
      rw [h.kept, htaken]
      simp
  · cases hd

/-- Copying ends a read, one that was outstanding or a new one. -/
theorem completed {k k1 : Kernel} {xs ended rest acc ret : List Byte} (h : Family k.links f) (hp : ∀ q, p ∉ f q)
    (howner : k.kbd.ps.pcb = some p) (h0 : 0 ≤ k.kbd.ps.ch_read) (hlt : k.kbd.ps.ch_read < k.kbd.ps.buf_len)
    (hlen : k.kbd.ps.buf_len < 2 ^ 31) (hk : k.kbd.EofKnown) (hreach : k.kbd.ps.status &&& EOF_REACHED = 0)
    (hkept : acc = ret ++ k.mem.bytes k.kbd.ps.buf k.kbd.ps.ch_read.toNat ++ k.kbd.ring)
    (hc : Copied p k k1 DRV_DONE t xs ended rest) (hr : ready k1 p = some k') :
    StreamInv p { kernel := k', accepted := acc, returned := ret ++ readResult k k' p }
      (Function.update f .ready (f .ready ++ [p])) := by
  have hcount := hc.count
  have hlinks : Family k1.links f := by
    rw [hc.frame]
    exact h
  rw [readResult_ready hr, hc.readResult h0 hlt hlen hreach]
  refine readied hlinks hp hr ?_ (by omega) ?_ (hc.eofKnown hk) ?_
  · rw [hc.ps]
    exact howner
  · rw [hc.ps]
    exact hlen
  · rw [hkept, hc.taken, hc.left]
    simp only [List.append_assoc]

/-- An interrupt while the process waits, or one that takes nothing out of the buffer. -/
theorem key (h : StreamInv p s f) (hok : ReaderWaits s.kernel codes) (hl : keyboard_lower s.kernel codes = some (k', t)) :
    ∃ f', StreamInv p
      { kernel := k'
        accepted := s.accepted ++ accepted s.kernel.kbd codes
        returned :=
          if s.kernel.state p = .READING ∧ .ready p ∈ t then s.returned ++ readResult s.kernel k' p else s.returned } f' := by
  have hf := h.filled codes
  rcases keyboard_lower_cases hl with ⟨-, rfl, rfl⟩ | ⟨hlt, q, k1, rc, t1, xs, ended, rest, hq, hc, hend⟩
  · exact ⟨f, by simpa using hf⟩
  obtain rfl : q = p := Option.some.inj (hq.symm.trans h.owner)
  have hlt' : (Xeros.filled s.kernel codes).kbd.ps.ch_read < (Xeros.filled s.kernel codes).kbd.ps.buf_len := by
    obtain ⟨status, e, -⟩ := keyboard_fill_ps s.kernel.kbd codes
    rw [Xeros.filled, e]
    exact hlt
  have hstate1 : k1.state = s.kernel.state := by
    rw [hc.frame]
    rfl
  by_cases hread : s.kernel.state q = .READING
  · have hout : outstanding (Xeros.filled s.kernel codes) q = _ := if_pos hread
    rcases hend with ⟨rfl, rfl, rfl⟩ | ⟨rfl, hr, rfl⟩
    · -- the read is still outstanding
      have hnot : Touch.ready q ∉ t := fun hm => hc.touches _ hm
      rw [if_neg fun hh => hnot hh.2]
      refine ⟨f, hf.copied hc ?_⟩
      have hbuf : k'.kbd.ps.buf = (Xeros.filled s.kernel codes).kbd.ps.buf := by rw [hc.ps]
      rw [hout, ← hc.stored hf.ch_read hlt' hf.buf_len, ← hbuf]
      exact if_pos (hstate1 ▸ hread)
    · have hkept := hf.kept
      simp only [hout] at hkept
      have hdone := completed hf.lists (hf.unlisted (.inr hread)) hf.owner hf.ch_read hlt' hf.buf_len hf.known
        (hf.reading hread) hkept hc hr
      rw [readResult_filled] at hdone
      rw [if_pos ⟨hread, by simp⟩]
      exact ⟨_, hdone⟩
  · -- there was nothing to copy
    have hsize : (keyboard_fill s.kernel.kbd codes).size = 0 := by
      by_contra hne
      exact hread (hok hlt hne q hq)
    have htaken := hc.taken
    have hring : (Xeros.filled s.kernel codes).kbd.ring = [] := by
      rw [Kbd.ring]
      simp only [Xeros.filled, hsize, Ring.contents_zero]
    rw [hring] at htaken
    obtain ⟨rfl, rfl, rfl⟩ : xs = [] ∧ ended = [] ∧ rest = [] := by simpa using htaken.symm
    rw [if_neg fun hh => hread hh.1]
    rcases hend with ⟨rfl, rfl, rfl⟩ | ⟨rfl, -⟩
    · refine ⟨f, hf.copied hc ?_⟩
      have hout : outstanding (Xeros.filled s.kernel codes) q = [] := if_neg hread
      have hout' : outstanding k' q = [] := if_neg (hstate1 ▸ hread)
      rw [hout, hout', List.append_nil]
    · rcases hc.outcome with ⟨hd, -⟩ | ⟨-, hne, -⟩
      · cases hd
      · exact absurd rfl hne

theorem read {buf buf_len : Word} {rc : Int} (h : StreamInv p s f) (hp : s.kernel.state p = .RUNNING)
    (hlen : 1 ≤ buf_len.toInt) (hr : keyboard_read s.kernel p buf buf_len = some (rc, k')) :
    (rc = DRV_BLOCK ∧ StreamInv p { s with kernel := k' } f) ∨
    (rc = DRV_DONE ∧ ∀ k2, ready k' p = some k2 →
      ∃ f', StreamInv p { s with kernel := k2, returned := s.returned ++ readResult s.kernel k2 p } f') := by
  have hun := h.unlisted (.inl hp)
  have hmax : buf_len.toInt < 2 ^ 31 := BitVec.toInt_lt
  have hknown : (requested s.kernel buf buf_len).kbd.EofKnown := ⟨h.known.seen, h.known.reached⟩
  have hring : (requested s.kernel buf buf_len).kbd.ring = s.kernel.kbd.ring := rfl
  have hkept := h.kept
  have hout : outstanding s.kernel p = [] := if_neg (by simp [hp])
  rw [hout, List.append_nil] at hkept
  rcases (keyboard_read_cases hr).2 with ⟨hrc, hin, e⟩ | ⟨hrc, hreach, e⟩ | ⟨hrc, hreach, t, xs, ended, rest, hc⟩
  · refine .inl ⟨hrc, ?_⟩
    rw [e]
    refine ⟨h.lists, fun _ => hun, h.owner, Int.le_refl 0, hmax, hknown, fun _ => ?_, ?_⟩
    · by_contra hreach
      exact h.known.reached hreach hin
    · have hnone : outstanding { requested s.kernel buf buf_len with state := Function.update s.kernel.state p .READING } p
          = [] := by
        simp [outstanding, requested, Mem.bytes]
      simp only [hnone, List.append_nil]
      exact hkept
  · refine .inr ⟨hrc, fun k2 hr2 => ?_⟩
    have hlists : Family k'.links f := by
      rw [e]
      exact h.lists
    subst e
    have hnothing : readResult s.kernel k2 p = [] := by
      rw [readResult_ready hr2, readResult, if_neg fun hh => hreach hh.1]
      simp [Mem.bytes]
    rw [hnothing, List.append_nil]
    have h0 : (0 : Int) ≤ (requested s.kernel buf buf_len).kbd.ps.ch_read := Int.le_refl 0
    exact ⟨_, readied hlists hun hr2 h.owner h0 hmax hknown hkept⟩
  · refine .inr ⟨hrc, fun k2 hr2 => ?_⟩
    have h0 : (0 : Int) ≤ (requested s.kernel buf buf_len).kbd.ps.ch_read := Int.le_refl 0
    have hlt : (requested s.kernel buf buf_len).kbd.ps.ch_read < (requested s.kernel buf buf_len).kbd.ps.buf_len := by
      change (0 : Int) < buf_len.toInt
      omega
    have hkept' : s.accepted = s.returned ++ (requested s.kernel buf buf_len).mem.bytes
        (requested s.kernel buf buf_len).kbd.ps.buf (requested s.kernel buf buf_len).kbd.ps.ch_read.toNat ++
        (requested s.kernel buf buf_len).kbd.ring := by
      rw [hring, hkept]
      simp [requested, Mem.bytes]
    have hlists : Family (requested s.kernel buf buf_len).links f := h.lists
    exact ⟨_, completed (k := requested s.kernel buf buf_len) hlists hun h.owner h0 hlt hmax hknown hreach hkept'
      (hrc ▸ hc) hr2⟩

theorem run (h : StreamInv p s f) {e : StreamEvent} {s' : StreamSys} (he : e = .run) (ht : streamStep p e s = some s') :
    ∃ f', StreamInv p s' f' := by
  subst he
  simp only [streamStep] at ht
  cases hf : f .ready with
  | nil =>
    rw [next_none h.lists hf] at ht
    cases ht
    exact ⟨f, h⟩
  | cons q is =>
    obtain ⟨k1, hn, -, hlists, e⟩ := next_some h.lists hf
    rw [hn] at ht
    cases ht
    have hsplit : f .ready = [] ++ q :: is := hf
    have hnot := h.lists.not_mem_remove hsplit
    have hstate : k1.state = s.kernel.state := by rw [e]
    refine ⟨Function.update f .ready is, hlists, ?_, ?_, ?_, ?_, ?_, ?_, ?_⟩
    · intro hp r hm
      by_cases hpq : p = q
      · subst hpq
        exact hnot r hm
      · simp only [Function.update_of_ne hpq, hstate] at hp
        have hun := h.unlisted hp
        by_cases hr : r = .ready
        · subst hr
          rw [Function.update_self] at hm
          exact hun .ready (hf ▸ List.mem_cons_of_mem _ hm)
        · rw [Function.update_of_ne hr] at hm
          exact hun r hm
    · rw [e]
      exact h.owner
    · rw [e]
      exact h.ch_read
    · rw [e]
      exact h.buf_len
    · rw [e]
      exact h.known
    · intro hr
      have hpq : p ≠ q := by
        rintro rfl
        simp at hr
      simp only [Function.update_of_ne hpq, hstate] at hr
      rw [e]
      exact h.reading hr
    · have hout : outstanding { k1 with state := Function.update k1.state q .RUNNING } p = outstanding s.kernel p := by
        by_cases hpq : p = q
        · subst hpq
          -- the process was ready, so it was not reading
          have hne : s.kernel.state p ≠ .READING := fun hr =>
            h.unlisted (.inr hr) .ready (hf ▸ List.mem_cons_self)
          simp [outstanding, hne]
        · rw [e]
          simp [outstanding, Function.update_of_ne hpq]
      simp only [hout]
      rw [e]
      exact h.kept

/-- A successful open starts with an empty buffer and no read. -/
theorem init {p : Idx} {s : StreamSys} (h : StreamInit p s) : ∃ f, StreamInv p s f := by
  obtain ⟨f, k, k', echo, eof, hlists, hun, hrun, hopen, rfl⟩ := h
  refine ⟨f, ?_⟩
  have hpcb : k.kbd.ps.pcb = none := by
    by_contra hne
    obtain ⟨q, hq⟩ := Option.ne_none_iff_exists'.1 hne
    rw [open_with_echo, _keyboard_open, hq] at hopen
    cases hopen
  rw [open_with_echo, _keyboard_open, hpcb] at hopen
  cases hopen
  have hnot : ¬k.state p = .READING := by simp [hrun]
  have hmax : (0 : Int) < 2 ^ 31 := by decide
  refine ⟨hlists, fun _ => hun, rfl, Int.le_refl 0, hmax, ⟨?_, ?_⟩, fun hr => absurd hr hnot, ?_⟩
  · intro c hc
    simp [Kbd.ring] at hc
  · have h0 : (0 : Word) &&& EOF_REACHED = 0 := by decide
    exact fun hr => absurd h0 hr
  · simp [outstanding, hnot, Kbd.ring]

theorem step {e : StreamEvent} {s' : StreamSys} (h : StreamInv p s f)
    (hok : ∀ codes, e = .key codes → ReaderWaits s.kernel codes) (ht : streamStep p e s = some s') :
    ∃ f', StreamInv p s' f' := by
  cases e with
  | key codes =>
    obtain ⟨⟨k, t⟩, hl, ht⟩ := Option.bind_eq_some_iff.1 ht
    cases ht
    exact h.key (hok codes rfl) hl
  | read buf buf_len =>
    simp only [streamStep] at ht
    split at ht
    · next hp =>
      obtain ⟨⟨rc, k⟩, hr, ht⟩ := Option.bind_eq_some_iff.1 ht
      rcases h.read hp.1 hp.2 hr with ⟨hrc, h'⟩ | ⟨hrc, h'⟩
      · subst hrc
        cases ht
        exact ⟨f, h'⟩
      · subst hrc
        obtain ⟨k2, hr2, ht⟩ := Option.bind_eq_some_iff.1 ht
        cases ht
        exact h' k2 hr2
    · cases ht
  | run => exact h.run rfl ht

theorem stream (h : StreamInv p s f) : Stream p s := by
  refine ⟨h.kept, fun codes k' t hne hok hl => ?_⟩
  obtain ⟨f', h'⟩ := h.key hok hl
  have hkept' := h'.kept
  have hkept := h.kept
  have hout : outstanding s.kernel p = [] := if_neg hne
  have hout' : outstanding k' p = [] := by
    apply if_neg
    intro hr
    rcases keyboard_lower_state hl p with e | e
    · exact hne (e ▸ hr)
    · rw [e] at hr
      cases hr
  rw [hout, List.append_nil] at hkept
  simp only [hout', if_neg fun hh : _ ∧ _ => hne hh.1, List.append_nil] at hkept'
  rw [hkept, List.append_assoc] at hkept'
  exact (List.append_cancel_left hkept').symm

end StreamInv

/-! ## Results -/

/-- The interrupts find the process waiting, or take nothing out of the buffer. -/
def ReaderWaitsAt (s : StreamSys) : StreamEvent → Prop
  | .key codes => ReaderWaits s.kernel codes
  | _ => True

instance (s : StreamSys) : DecidablePred (ReaderWaitsAt s)
  | .key codes => inferInstanceAs (Decidable (ReaderWaits s.kernel codes))
  | .read .. => inferInstanceAs (Decidable True)
  | .run => inferInstanceAs (Decidable True)

/-- In every run in which no interrupt copies while no read is outstanding, no
character is lost, doubled or moved. -/
theorem stream_kept {p : Idx} {s : StreamSys} (hs : Reach (streamStep p) (StreamInit p) ReaderWaitsAt s) : Stream p s := by
  obtain ⟨f, h⟩ : ∃ f, StreamInv p s f := by
    refine hs.inv (fun s => ∃ f, StreamInv p s f) (fun s h => StreamInv.init h) fun s e s' h hok ht => ?_
    obtain ⟨f, h⟩ := h
    refine h.step (fun codes he => ?_) ht
    subst he
    exact hok
  exact h.stream

/-- Only process 0 is in use, and runs. -/
def alone : Kernel := { statics fun _ => 0 with state := fun i => if i = 0 then .RUNNING else .STOPPED }

/-- Process 0 has just opened the keyboard. -/
def opened_by_0 : StreamSys := { kernel := (keyboard_open alone 0).2, accepted := [], returned := [] }

theorem alone_lists : Family alone.links fun _ => [] := by
  refine ⟨fun q => ?_, fun _ => .nil, by simp⟩
  rcases q with _ | _ | p | p <;> rfl

theorem opened_by_0_init : StreamInit 0 opened_by_0 :=
  ⟨_, alone, (keyboard_open alone 0).2, 0, DEFAULT_EOF, alone_lists, by simp, rfl, rfl, rfl⟩

/-- The scan codes of the keys `a` and `enter`. -/
def keyA : Byte := 0x1e
def keyEnter : Byte := 0x1c

/-- A read of two characters gets one and the end of the line. -/
theorem stream_kept_2_keys : ∃ s, Reach (streamStep 0) (StreamInit 0) ReaderWaitsAt s ∧
    s.returned = [97, 10] ∧ Stream 0 s := by
  have h0 : Reach (streamStep 0) (StreamInit 0) ReaderWaitsAt opened_by_0 := .start opened_by_0_init
  obtain ⟨s, hs, ht⟩ := h0.exec_ok (fun s e => decide (ReaderWaitsAt s e)) (fun _ _ => of_decide_eq_true)
    [.read 0x1000 2, .key [keyA], .key [keyEnter], .run] (fun s => decide (s.returned = [97, 10])) (by decide +kernel)
  exact ⟨s, hs, of_decide_eq_true ht, stream_kept hs⟩

/-- A read of three characters ends with the line; the next key is taken out of
the buffer although nobody reads. -/
theorem stream_broken : ¬∀ p s, Reach (streamStep p) (StreamInit p) Any s → Stream p s := by
  intro hall
  have h0 : Reach (streamStep 0) (StreamInit 0) Any opened_by_0 := .start opened_by_0_init
  obtain ⟨s, hs, ht⟩ := h0.exec_any [.read 0x1000 3, .key [keyEnter], .run, .key [keyA]]
    (fun s => decide (s.accepted ≠ s.returned ++ outstanding s.kernel 0 ++ s.kernel.kbd.ring)) (by decide +kernel)
  exact of_decide_eq_true ht (hall 0 s hs).kept

end Xeros
