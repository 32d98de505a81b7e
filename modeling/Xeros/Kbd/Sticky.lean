import Xeros.Kbd.Immediate
/-!
# After the EOF character

A read that has taken the EOF character sets `EOF_REACHED`, and a later read
returns nothing if it gets as far as testing that flag. It does when
`EOF_IN_BUF` is set, too; `insert_char` sets it, but not for a character that
`ioctl` makes the EOF character afterwards. `eof_sticky` is about the runs in
which no read ends at such a character.
-/

namespace Xeros

open Runs

/-! ## The driver, watched -/

/-- The driver, and whether a read has consumed the EOF character since the
device was opened. -/
structure EofSys where
  kernel : Kernel
  consumed : Bool

/-- One character more has left the buffer than has been stored. -/
def tookEof (kb kb' : Kbd) : Bool := decide ((kb.size : Int) - kb'.size = kb'.ps.ch_read - kb.ps.ch_read + 1)

/-- The process that has the device open is blocked on a read. -/
def OwnerReads (k : Kernel) : Prop := k.kbd.ps.pcb.map k.state = some .READING

instance (k : Kernel) : Decidable (OwnerReads k) := inferInstanceAs (Decidable (_ = _))

/-- Whether a read has consumed the EOF character after the event that led to `k`. -/
def consumes (s : EofSys) (k : Kernel) : DriverEvent → Bool
  | .dvopen .. => s.consumed && s.kernel.kbd.ps.pcb.isSome
  | .dvclose _ => false
  | .dvread _ buf buf_len => s.consumed || tookEof (requested s.kernel buf buf_len).kbd k.kbd
  | .key codes => s.consumed || (decide (OwnerReads s.kernel) && tookEof (filled s.kernel codes).kbd k.kbd)
  | _ => s.consumed

def eofStep (e : DriverEvent) (s : EofSys) : Option EofSys := do
  let k ← driverStep e s.kernel
  some { kernel := k, consumed := consumes s k e }

def EofInit (s : EofSys) : Prop := DriverInit s.kernel ∧ s.consumed = false

/-- Every read returns nothing, at once, and leaves the buffer as it is. -/
def Sticky (k : Kernel) : Prop :=
  ∀ p buf buf_len, k.kbd.ps.pcb = some p → 1 ≤ buf_len.toInt →
    ∃ k', keyboard_read k p buf buf_len = some (DRV_DONE, k') ∧ k'.irc p = 0 ∧ k'.kbd.ring = k.kbd.ring ∧
      k'.mem = k.mem ∧ k'.state = k.state

/-- If the event ends a read at the EOF character, the flag says that there is one. -/
def EofAnnounced (k : Kernel) : DriverEvent → Prop
  | .dvread _ buf buf_len =>
    ¬TooFew k buf_len → k.kbd.ps.status &&& EOF_REACHED = 0 → (requested k buf buf_len).kbd.ended ≠ [] →
      k.kbd.ps.status &&& EOF_IN_BUF ≠ 0
  | .key codes =>
    OwnerReads k → (filled k codes).kbd.ended ≠ [] → (filled k codes).kbd.ps.status &&& EOF_IN_BUF ≠ 0
  | _ => True

instance (k : Kernel) : DecidablePred (EofAnnounced k)
  | .dvopen .. => inferInstanceAs (Decidable True)
  | .dvclose _ => inferInstanceAs (Decidable True)
  | .dvioctl .. => inferInstanceAs (Decidable True)
  | .dvread .. => inferInstanceAs (Decidable (_ → _ → _ → _))
  | .key _ => inferInstanceAs (Decidable (_ → _ → _))
  | .other _ => inferInstanceAs (Decidable True)

def EofOk (s : EofSys) (e : DriverEvent) : Prop := DriverOk s.kernel e ∧ EofAnnounced s.kernel e

/-! ## The flags -/

section
variable {k k' : Kernel} {p : Idx} {t : List Touch}

theorem sticky_of_flags (hin : k.kbd.ps.status &&& EOF_IN_BUF ≠ 0) (hr : k.kbd.ps.status &&& EOF_REACHED ≠ 0) :
    Sticky k := by
  intro p buf buf_len hp _
  have hw : ¬TooFew k buf_len := fun h => hin h.1
  exact ⟨_, keyboard_read_eof hp hw hr, Function.update_self .., rfl, rfl, rfl⟩

/-- Without `EOF_IN_BUF` a read of more than fits into the buffer blocks. -/
theorem not_sticky (hp : k.kbd.ps.pcb = some p) (hsize : k.kbd.size ≤ KEYBOARD_BUF_LEN)
    (hin : k.kbd.ps.status &&& EOF_IN_BUF = 0) : ¬Sticky k := by
  intro h
  obtain ⟨k', hread, -⟩ := h p 0 5 hp (by decide)
  have h4 : k.kbd.size ≤ 4 := hsize
  have h5 : (5 : Word).toInt = 5 := by decide
  have hw : TooFew k 5 := ⟨hin, by omega⟩
  rw [keyboard_read_waits hp hw] at hread
  cases hread

/-- Filling the buffer does not clear the flag. -/
theorem keyboard_fill_in_buf {kb : Kbd} (h : kb.ps.status &&& EOF_IN_BUF ≠ 0) (codes : List Byte) :
    (keyboard_fill kb codes).ps.status &&& EOF_IN_BUF ≠ 0 := by
  induction codes generalizing kb with
  | nil => exact h
  | cons code codes ih =>
    unfold keyboard_fill
    set ks := kbtoa kb.state code
    simp only []
    split
    · rcases insert_char_spec { kb with state := ks.2 } (ks.1.setWidth 8) with ⟨kb', hi, -, -, hps⟩ | hi
      · rw [hi]
        simp only [if_pos]
        apply ih
        rw [hps]
        simp only []
        split
        · exact eof_in_buf_set _
        · exact h
      · rw [hi]
        exact h
    · exact ih h

/-- Copying takes the EOF character exactly when it comes next in line, and
notes it. -/
theorem Fed.eof (h : Fed p k k' t) : (tookEof k.kbd k'.kbd = true ↔ k.kbd.ended ≠ []) ∧
    k'.kbd.ps.status = if k.kbd.ended ≠ [] then k.kbd.ps.status ||| EOF_REACHED else k.kbd.ps.status := by
  have hlen := congrArg List.length h.taken
  have hleft := congrArg List.length h.left
  have hcount := h.count
  simp only [List.length_append, Kbd.length_ring] at hlen hleft
  have hended : (k.kbd.ended = [] ∧ k'.kbd.ps.status = k.kbd.ps.status) ∨
      ∃ c, k.kbd.ended = [c] ∧ k'.kbd.ps.status = k.kbd.ps.status ||| EOF_REACHED := by
    rcases h.outcome with ⟨-, he, -, hst, -⟩ | ⟨-, -, -, ⟨he, hst⟩ | ⟨c, he, -, hst⟩⟩
    · exact .inl ⟨he, hst⟩
    · exact .inl ⟨he, hst⟩
    · exact .inr ⟨c, he, hst⟩
  rw [tookEof, decide_eq_true_iff]
  rcases hended with ⟨he, hst⟩ | ⟨c, he, hst⟩
  · rw [he] at hlen ⊢
    refine ⟨iff_of_false (fun e => ?_) (by simp), by simpa using hst⟩
    simp only [List.length_nil] at hlen
    omega
  · rw [he] at hlen ⊢
    refine ⟨iff_of_true ?_ (by simp), by simpa using hst⟩
    simp only [List.length_singleton] at hlen
    omega

end

/-! ## The invariant -/

structure EofInv (s : EofSys) : Prop extends DriverInv s.kernel where
  in_buf : s.consumed = true → s.kernel.kbd.ps.status &&& EOF_IN_BUF ≠ 0
  reached : s.consumed = true → s.kernel.kbd.ps.status &&& EOF_REACHED ≠ 0

section
variable {k k' : Kernel} {p : Idx} {t : List Touch}

theorem Fed.in_buf (h : Fed p k k' t) : k'.kbd.ps.status &&& EOF_IN_BUF = k.kbd.ps.status &&& EOF_IN_BUF := by
  rw [h.eof.2]
  split
  · exact eof_reached_in_buf _
  · rfl

theorem Fed.reached (h : Fed p k k' t) (hr : k.kbd.ended ≠ [] ∨ k.kbd.ps.status &&& EOF_REACHED ≠ 0) :
    k'.kbd.ps.status &&& EOF_REACHED ≠ 0 := by
  rw [h.eof.2]
  split
  · exact eof_reached_set _
  · next hended => exact hr.resolve_left hended

theorem tookEof_self {kb kb' : Kbd} (hsize : kb'.size = kb.size) (hch : kb'.ps.ch_read = kb.ps.ch_read) :
    tookEof kb kb' = false := by
  rw [tookEof, hsize, hch, decide_eq_false_iff_not]
  omega

end

namespace EofInv
variable {s s' : EofSys} {p : Idx}

theorem init (h : EofInit s) : EofInv s := by
  refine ⟨.init h.1, fun hc => ?_, fun hc => ?_⟩
  · rw [h.2] at hc
    cases hc
  · rw [h.2] at hc
    cases hc

theorem read {k : Kernel} {buf buf_len : Word} {rc : Int} (h : EofInv s) (hp : CanCall s.kernel p)
    (hok : EofAnnounced s.kernel (.dvread p buf buf_len)) (hr : keyboard_read s.kernel p buf buf_len = some (rc, k)) :
    EofInv { kernel := k, consumed := consumes s k (.dvread p buf buf_len) } := by
  refine ⟨h.toDriverInv.read hp hr, ?_, ?_⟩
  all_goals
    intro hc
    rcases keyboard_read_kbd hr with e | ⟨hw, hreach, t, hfed⟩
  · rw [e]
    rw [consumes, e, tookEof_self rfl rfl, Bool.or_false] at hc
    exact h.in_buf hc
  · rcases Bool.or_eq_true_iff.1 hc with hc | hc
    · exact absurd hreach (h.reached hc)
    · rw [hfed.in_buf]
      exact hok hw hreach (hfed.eof.1.1 hc)
  · rw [e]
    rw [consumes, e, tookEof_self rfl rfl, Bool.or_false] at hc
    exact h.reached hc
  · rcases Bool.or_eq_true_iff.1 hc with hc | hc
    · exact absurd hreach (h.reached hc)
    · exact hfed.reached (.inl (hfed.eof.1.1 hc))

theorem key {k : Kernel} {codes : List Byte} {t : List Touch} (h : EofInv s)
    (hok : EofAnnounced s.kernel (.key codes)) (hl : keyboard_lower s.kernel codes = some (k, t)) :
    EofInv { kernel := k, consumed := consumes s k (.key codes) } := by
  have hfill (hc : s.consumed = true) : (filled s.kernel codes).kbd.ps.status &&& EOF_IN_BUF ≠ 0 :=
    keyboard_fill_in_buf (h.in_buf hc) codes
  have hfill' (hc : s.consumed = true) : (filled s.kernel codes).kbd.ps.status &&& EOF_REACHED ≠ 0 := by
    obtain ⟨status, hps, hreach, -⟩ := keyboard_fill_ps s.kernel.kbd codes
    rw [filled, hps]
    simp only [hreach]
    exact h.reached hc
  refine ⟨h.toDriverInv.key hl, ?_, ?_⟩
  all_goals
    intro hc
    rcases keyboard_lower_kbd hl with e | ⟨p, k1, t1, -, hfed, e⟩
    all_goals rw [consumes, e] at hc
  · rw [e]
    rw [tookEof_self rfl rfl, Bool.and_false, Bool.or_false] at hc
    exact hfill hc
  · rw [e, hfed.in_buf]
    rcases Bool.or_eq_true_iff.1 hc with hc | hc
    · exact hfill hc
    · obtain ⟨hreads, htook⟩ := Bool.and_eq_true_iff.1 hc
      exact hok (of_decide_eq_true hreads) (hfed.eof.1.1 htook)
  · rw [e]
    rw [tookEof_self rfl rfl, Bool.and_false, Bool.or_false] at hc
    exact hfill' hc
  · rw [e]
    rcases Bool.or_eq_true_iff.1 hc with hc | hc
    · exact hfed.reached (.inr (hfill' hc))
    · exact hfed.reached (.inl (hfed.eof.1.1 (Bool.and_eq_true_iff.1 hc).2))

theorem step {e : DriverEvent} (h : EofInv s) (hok : EofOk s e) (ht : eofStep e s = some s') : EofInv s' := by
  obtain ⟨k, hk, ht⟩ := Option.bind_eq_some_iff.1 ht
  cases ht
  have hinv := h.toDriverInv.step hok.1 hk
  cases e with
  | dvopen d p =>
    simp only [driverStep] at hk
    split at hk
    · cases hk
      cases hpcb : s.kernel.kbd.ps.pcb with
      | none =>
        have hc : ¬consumes s ((keyboards d).dvopen s.kernel p).2 (.dvopen d p) = true := by
          rw [consumes, hpcb]
          simp
        exact ⟨hinv, fun h => absurd h hc, fun h => absurd h hc⟩
      | some q =>
        have hc (k : Kernel) : consumes s k (.dvopen d p) = s.consumed := by
          rw [consumes, hpcb]
          simp
        refine ⟨hinv, fun h' => ?_, fun h' => ?_⟩
        all_goals
          have h' := (hc ((keyboards d).dvopen s.kernel p).2).symm.trans h'
          simp only [dvopen_busy hpcb]
        · exact h.in_buf h'
        · exact h.reached h'
    · cases hk
  | dvclose p =>
    have hc : ¬false = true := by decide
    exact ⟨hinv, fun h' => absurd h' hc, fun h' => absurd h' hc⟩
  | dvioctl p cmd ap =>
    simp only [driverStep] at hk
    split at hk
    · cases hk
      have hst : (keyboard_ioclt s.kernel p cmd ap).2.kbd.ps.status = s.kernel.kbd.ps.status := by
        rw [keyboard_ioclt_eq]
      refine ⟨hinv, fun hc => ?_, fun hc => ?_⟩
      all_goals simp only [hst]
      · exact h.in_buf hc
      · exact h.reached hc
    · cases hk
  | dvread p buf buf_len =>
    simp only [driverStep] at hk
    split at hk
    · next hp =>
      obtain ⟨⟨rc, k1⟩, hr, hk⟩ := Option.map_eq_some_iff.1 hk
      cases hk
      exact h.read hp hok.2 hr
    · cases hk
  | key codes =>
    obtain ⟨⟨k1, t⟩, hl, hk⟩ := Option.map_eq_some_iff.1 hk
    cases hk
    exact h.key hok.2 hl
  | other k1 =>
    cases hk
    have hkbd := hok.1.kbd
    refine ⟨hinv, fun hc => ?_, fun hc => ?_⟩
    all_goals simp only [hkbd]
    · exact h.in_buf hc
    · exact h.reached hc

/-- A read that ends at an EOF character that has not been announced leaves the
flag clear. -/
theorem unannounced {e : DriverEvent} (h : EofInv s) (hok : DriverOk s.kernel e) (hno : ¬EofAnnounced s.kernel e)
    (ht : eofStep e s = some s') : s'.consumed = true ∧ ¬Sticky s'.kernel := by
  obtain ⟨k, hk, ht⟩ := Option.bind_eq_some_iff.1 ht
  cases ht
  have hinv := h.toDriverInv.step hok hk
  cases e with
  | dvopen d p => exact absurd trivial hno
  | dvclose p => exact absurd trivial hno
  | dvioctl p cmd ap => exact absurd trivial hno
  | other k1 => exact absurd trivial hno
  | dvread p buf buf_len =>
    simp only [EofAnnounced, Classical.not_imp, not_not] at hno
    obtain ⟨hw, hreach, hended, hin⟩ := hno
    simp only [driverStep] at hk
    split at hk
    · next hp =>
      obtain ⟨⟨rc, k1⟩, hr, hk⟩ := Option.map_eq_some_iff.1 hk
      cases hk
      obtain ⟨-, -, t, hfed⟩ := keyboard_read_fed hp.2 hw hreach hr
      refine ⟨?_, not_sticky (p := p) ?_ hinv.size ?_⟩
      · rw [consumes, hfed.eof.1.2 hended, Bool.or_true]
      · rw [hfed.ps]
        exact hp.2
      · simp only [hfed.in_buf]
        exact hin
    · cases hk
  | key codes =>
    simp only [EofAnnounced, Classical.not_imp, not_not] at hno
    obtain ⟨hreads, hended, hin⟩ := hno
    obtain ⟨⟨k1, t⟩, hl, hk⟩ := Option.map_eq_some_iff.1 hk
    cases hk
    obtain ⟨p, hp, hst⟩ := Option.map_eq_some_iff.1 hreads
    obtain ⟨k2, t2, hfed, hend⟩ := keyboard_lower_fed hp (h.reader p hst).2 hl
    obtain ⟨status, hps⟩ := filled_ps s.kernel codes
    have e : k1.kbd = k2.kbd := by
      rcases hend with ⟨-, rfl, -⟩ | ⟨-, hready, -⟩
      · rfl
      · rw [ready_eq hready]
    refine ⟨?_, not_sticky (p := p) ?_ hinv.size ?_⟩
    · rw [consumes, e, hfed.eof.1.2 hended, decide_eq_true hreads]
      simp
    · rw [e, hfed.ps, hps]
      exact hp
    · simp only [e, hfed.in_buf]
      exact hin

end EofInv

/-! ## Results -/

/-- In every run in which each read that ends at the EOF character finds it
announced, the end of the file is final; and the first read that does not leaves
a state in which it is not. -/
theorem eof_sticky {s : EofSys} (hs : Reach eofStep EofInit EofOk s) :
    (s.consumed = true → Sticky s.kernel) ∧
      ∀ e s', DriverOk s.kernel e → ¬EofAnnounced s.kernel e → eofStep e s = some s' →
        s'.consumed = true ∧ ¬Sticky s'.kernel := by
  have h : EofInv s := hs.inv EofInv (fun _ h => .init h) fun _ _ _ h hok ht => h.step hok ht
  exact ⟨fun hc => sticky_of_flags (h.in_buf hc) (h.reached hc), fun e s' hok hno ht => h.unannounced hok hno ht⟩

/-- Process 0 runs, and there is an `a` in memory to set the EOF character to. -/
def aloneWithA : EofSys := { kernel := { alone with mem := Mem.store32 (fun _ => 0) 0x100 97 }, consumed := false }

theorem aloneWithA_init : EofInit aloneWithA := ⟨⟨rfl, alone_driverInit.2⟩, rfl⟩

/-- A read gets a character and takes the EOF character. -/
theorem eof_sticky_2_keys : ∃ s, Reach eofStep EofInit EofOk s ∧ s.consumed = true ∧ Sticky s.kernel := by
  have h0 : Reach eofStep EofInit EofOk aloneWithA := .start aloneWithA_init
  obtain ⟨s, hs, ht⟩ := h0.exec_ok (fun s e => e.isCall && decide (EofAnnounced s.kernel e))
    (fun s e ht => ⟨driverOk_of_isCall (Bool.and_eq_true_iff.1 ht).1, of_decide_eq_true (Bool.and_eq_true_iff.1 ht).2⟩)
    [.dvopen 0 0, .key (keyA :: keysEof), .dvread 0 0x1000 3] (fun s => s.consumed) (by decide +kernel)
  exact ⟨s, hs, ht, (eof_sticky hs).1 ht⟩

/-- An `a` is typed and then made the EOF character. A read takes it as such, and
the next one blocks. -/
theorem eof_forgotten : ¬∀ s, Reach eofStep EofInit (fun s e => DriverOk s.kernel e) s → s.consumed = true →
    Sticky s.kernel := by
  intro hall
  have h0 : Reach eofStep EofInit (fun s e => DriverOk s.kernel e) aloneWithA := .start aloneWithA_init
  obtain ⟨s, hs, ht⟩ := h0.exec_ok (fun _ e => e.isCall) (fun _ _ => driverOk_of_isCall)
    [.dvopen 0 0, .key [keyA], .dvioctl 0 53 0x100, .dvread 0 0x1000 1]
    (fun s => decide (s.consumed = true ∧ s.kernel.kbd.ps.pcb = some 0 ∧ s.kernel.kbd.size ≤ KEYBOARD_BUF_LEN ∧
      s.kernel.kbd.ps.status &&& EOF_IN_BUF = 0))
    (by decide +kernel)
  obtain ⟨hc, hp, hsize, hin⟩ := of_decide_eq_true ht
  exact not_sticky hp hsize hin (hall s hs hc)

end Xeros
