import Xeros.Model.Syscall
/-!
# Registering a handler

What `SIGHANDLER` accepts. The handler address is compared with `freemem` as a
signed number, and the old handler is written out before that check, so the
call does what it should for some addresses only (`register_exact_iff`).
-/

namespace Xeros

variable {im : Image} {k k' : Kernel} {p : Idx} {signal new_handler old_handler : Word}

/-! ## What is asked for -/

/-- The call succeeds: `new_handler` is the handler of `sig`, which is allowed if there is one. -/
structure Registered (k k' : Kernel) (p : Idx) (sig : Fin NUM_SIGNAL) (new_handler : Word) : Prop where
  irc : k'.irc p = 0
  sig_handler :
    k'.sig_handler = Function.update k.sig_handler p (Function.update (k.sig_handler p) sig new_handler)
  allowed_sig : k'.allowed_sig = Function.update k.allowed_sig p
    (if new_handler = 0 then k.allowed_sig p &&& ~~~SIG_INT sig else k.allowed_sig p ||| SIG_INT sig)

/-- The call fails and leaves no trace. -/
structure NotRegistered (k k' : Kernel) (p : Idx) (old_handler : Word) : Prop where
  irc : (k'.irc p).toInt < 0
  sig_handler : k'.sig_handler = k.sig_handler
  allowed_sig : k'.allowed_sig = k.allowed_sig
  old : k'.mem.load32 old_handler = k.mem.load32 old_handler

/-- The handler is installed exactly when the number is a signal's and the address, unsigned, is below `freemem`. -/
def RegisterExact (im : Image) (k : Kernel) (p : Idx) (signal new_handler old_handler : Word) : Prop :=
  let k' := register_sig_handler im k p signal new_handler old_handler
  (∀ sig : Fin NUM_SIGNAL, signal.toInt = sig → new_handler < im.freemem → Registered k k' p sig new_handler) ∧
  ((∀ sig : Fin NUM_SIGNAL, signal.toInt ≠ sig) ∨ im.freemem ≤ new_handler → NotRegistered k k' p old_handler)

/-! ## The call, in three cases -/

/-- `*old_handler`, once the number has been checked. -/
def writeOld (k : Kernel) (p : Idx) (sig : Fin NUM_SIGNAL) (old_handler : Word) : Mem :=
  if old_handler ≠ 0 then k.mem.store32 old_handler (k.sig_handler p sig) else k.mem

theorem register_no_signal (h : ∀ sig : Fin NUM_SIGNAL, signal.toInt ≠ sig) :
    register_sig_handler im k p signal new_handler old_handler = { k with irc := Function.update k.irc p (-1) } := by
  unfold register_sig_handler
  rw [dif_neg]
  rintro ⟨h0, hlt⟩
  have hi : (signal.toInt.toNat : Int) = signal.toInt := Int.toNat_of_nonneg h0
  have hl : signal.toInt.toNat < NUM_SIGNAL := by omega
  exact h ⟨signal.toInt.toNat, hl⟩ hi.symm

/-- The old handler is written whether or not the new one is accepted. -/
theorem register_signal {sig : Fin NUM_SIGNAL} (h : signal.toInt = sig) :
    register_sig_handler im k p signal new_handler old_handler =
      if im.freemem.toInt ≤ new_handler.toInt then
        { k with mem := writeOld k p sig old_handler, irc := Function.update k.irc p (-2) }
      else
        { k with
          mem := writeOld k p sig old_handler
          sig_handler := Function.update k.sig_handler p (Function.update (k.sig_handler p) sig new_handler)
          allowed_sig := Function.update k.allowed_sig p
            (if new_handler = 0 then k.allowed_sig p &&& ~~~SIG_INT sig else k.allowed_sig p ||| SIG_INT sig)
          irc := Function.update k.irc p 0 } := by
  have hlt := sig.isLt
  have hrange : 0 ≤ signal.toInt ∧ signal.toInt < NUM_SIGNAL := by omega
  have hn : signal.toInt.toNat = sig := by rw [h, Int.toNat_natCast]
  unfold register_sig_handler writeOld
  simp only [dif_pos hrange, hn, Fin.eta]
  by_cases hold : old_handler ≠ 0
  · simp only [if_pos hold]
  · simp only [if_neg hold]

/-- What is written for `*old_handler` is there already, or there is no place for it. -/
theorem writeOld_load (k : Kernel) (p : Idx) (sig : Fin NUM_SIGNAL) (old_handler : Word) :
    (writeOld k p sig old_handler).load32 old_handler = k.mem.load32 old_handler ↔
      old_handler = 0 ∨ k.mem.load32 old_handler = k.sig_handler p sig := by
  unfold writeOld
  split
  · next h =>
    rw [Mem.load32_store32, or_iff_right h]
    exact eq_comm
  · next h => exact iff_of_true rfl (.inl (not_not.1 h))

/-! ## Result -/

/-- For every signal number, every address and every process the call does what it should exactly when the number
is no signal's, or the signed and the unsigned comparison of the address with `freemem` agree and, if the address is
refused, there is no `old_handler` or it holds the present handler already. -/
theorem register_exact_iff (im : Image) (k : Kernel) (p : Idx) (signal new_handler old_handler : Word) :
    RegisterExact im k p signal new_handler old_handler ↔ ∀ sig : Fin NUM_SIGNAL, signal.toInt = sig →
      (new_handler.toInt < im.freemem.toInt ↔ new_handler < im.freemem) ∧
      (new_handler < im.freemem ∨ old_handler = 0 ∨ k.mem.load32 old_handler = k.sig_handler p sig) := by
  unfold RegisterExact
  constructor
  · rintro ⟨hyes, hno⟩ sig hsig
    by_cases hnew : new_handler < im.freemem
    · refine ⟨iff_of_true ?_ hnew, .inl hnew⟩
      by_contra hle
      have hr := hyes sig hsig hnew
      rw [register_signal hsig, if_pos (Int.not_lt.1 hle)] at hr
      have hirc := hr.irc
      simp at hirc
    · have hn := hno (.inr (BitVec.not_lt.1 hnew))
      by_cases hle : im.freemem.toInt ≤ new_handler.toInt
      · rw [register_signal hsig, if_pos hle] at hn
        exact ⟨iff_of_false (Int.not_lt.2 hle) hnew, .inr ((writeOld_load ..).1 hn.old)⟩
      · rw [register_signal hsig, if_neg hle] at hn
        have hirc := hn.irc
        simp at hirc
  · intro hcond
    refine ⟨fun sig hsig hnew => ?_, fun hbad => ?_⟩
    · obtain ⟨hiff, -⟩ := hcond sig hsig
      rw [register_signal hsig, if_neg (Int.not_le.2 (hiff.2 hnew))]
      exact ⟨Function.update_self .., rfl, rfl⟩
    · by_cases hex : ∃ sig : Fin NUM_SIGNAL, signal.toInt = sig
      · obtain ⟨sig, hsig⟩ := hex
        have hnew : ¬new_handler < im.freemem :=
          BitVec.not_lt.2 (hbad.resolve_left fun h => h sig hsig)
        obtain ⟨hiff, hold⟩ := hcond sig hsig
        rw [register_signal hsig, if_pos (Int.not_lt.1 (mt hiff.1 hnew))]
        refine ⟨?_, rfl, rfl, (writeOld_load ..).2 (hold.resolve_left hnew)⟩
        simp
      · rw [register_no_signal (not_exists.1 hex)]
        refine ⟨?_, rfl, rfl, rfl⟩
        simp

/-- PCB 0 has the handler 0x5000 for signal 3. -/
def handling : Kernel :=
  { statics (fun _ => 0) with sig_handler := Function.update (fun _ _ => 0) 0 (Function.update (fun _ => 0) 3 0x5000) }

/-- The upper half of the addresses is accepted, and a refused call writes the old handler. -/
theorem register_accepts_high : ¬RegisterExact sampleImage handling 0 3 0x80000000 0 ∧
    ¬RegisterExact sampleImage handling 0 3 0x30000 0x1000 := by
  have hsig : (3 : Word).toInt = (3 : Fin NUM_SIGNAL) := by decide
  constructor
  · rintro ⟨-, hno⟩
    have hn := hno (.inr (by decide))
    have hacc : ¬sampleImage.freemem.toInt ≤ (0x80000000 : Word).toInt := by decide
    rw [register_signal hsig, if_neg hacc] at hn
    have hirc := hn.irc
    simp at hirc
  · rintro ⟨-, hno⟩
    have hn := hno (.inr (by decide))
    have href : sampleImage.freemem.toInt ≤ (0x30000 : Word).toInt := by decide
    rw [register_signal hsig, if_pos href] at hn
    have hold := (writeOld_load ..).1 hn.old
    exact absurd hold (by decide)

end Xeros
