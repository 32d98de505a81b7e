import Xeros.Signal.Active
/-!
# Handlers nest

Every event keeps the list of active handlers true to the kernel (`SigInv`), as
long as the handlers keep to their own part of the stack. What the kernel does
for another process does not touch the signal state of `p`, and what it does
for `p` itself leaves the frames alone.
-/

namespace Xeros

open Runs

variable {im : Image} {own : Set Word} {p q : Idx} {k k' : Kernel} {s s' : SigSys}

/-! ## What each event does to `p` -/

theorem KeepsSignals.keyboard_lower {codes : List Byte} {t : List Touch}
    (h : Xeros.keyboard_lower k codes = some (k', t)) : KeepsSignals p k k' := by
  have e := keyboard_lower_eq h
  apply of_eq
  · rw [e]
  · rw [e]
  · rw [e]

/-- A selection takes nobody out of the ready state. -/
theorem select_state {r : Option Idx} (h : select k = some (k', r)) :
    (k.state p = .READY → k'.state p = .READY) ∧ k'.irc = k.irc ∧ k'.mem = k.mem := by
  rcases select_cases h with rfl | rfl | ⟨i, hr⟩
  · rw [next_eq]
    exact ⟨id, rfl, rfl⟩
  · rw [next_eq, next_eq]
    exact ⟨id, rfl, rfl⟩
  · rw [ready_eq hr, next_eq, next_eq]
    refine ⟨fun hp => ?_, rfl, rfl⟩
    simp only [Function.update_apply]
    split
    · rfl
    · exact hp

/-- Served, a request that is not a return by `p` keeps the signal state of `p`. -/
theorem KeepsSignals.serve {r : Option Request} (hp : k.state p ≠ .STOPPED) (hr : r = some .SIGRETURN → q ≠ p)
    (h : Xeros.serve im k q r = some k') : KeepsSignals p k k' := by
  unfold Xeros.serve at h
  split at h
  · cases h
    exact of_eq rfl rfl rfl
  · cases h
    exact of_eq rfl rfl rfl
  · next r _ =>
    obtain ⟨⟨k1, tr⟩, hh, h⟩ := Option.bind_eq_some_iff.1 h
    have h1 : KeepsSignals p k k1 := by
      by_cases hret : r = .SIGRETURN
      · subst hret
        cases hh
        have hpq : p ≠ q := Ne.symm (hr rfl)
        apply of_eq
        · exact Function.update_of_ne hpq ..
        · exact Function.update_of_ne hpq ..
        · rfl
      · exact handle_request hp hret hh
    simp only [] at h
    split at h
    · exact trans h1 (of_moves (Moves.ready h))
    · cases h
      exact h1

theorem Moves.serve_timer (h : serve im k q (some .SYS_TIMER) = some k') : Moves k k' := by
  obtain ⟨⟨k1, tr⟩, hh, h⟩ := Option.bind_eq_some_iff.1 h
  obtain ⟨k2, ht, hh⟩ := Option.bind_eq_some_iff.1 hh
  cases hh
  exact trans (tick ht) (ready h)

theorem KeepsSignals.resume (hq : q ≠ p) : KeepsSignals p k (Xeros.resume im k q) := by
  have hpq : p ≠ q := Ne.symm hq
  have hne {α : Type} (f : Idx → α) (v : α) : Function.update f q v p = f p := Function.update_of_ne hpq v f
  unfold Xeros.resume Xeros.deliver_signal
  split
  · apply of_eq
    · exact hne ..
    · exact hne ..
    · exact hne ..
  · exact of_eq rfl rfl rfl

theorem resume_state (hq : q ≠ p) : (resume im k q).state p = k.state p := by
  rw [resume_eq]
  exact Function.update_of_ne (Ne.symm hq) ..

theorem resume_irc (im : Image) (k : Kernel) (q : Idx) : (resume im k q).irc = k.irc := by
  rw [resume_eq]

/-! ## The invariant -/

structure SigInv (im : Image) (own : Set Word) (p : Idx) (s : SigSys) : Prop where
  active : Active im own p s.kernel s.frames
  resuming : ∀ b ∈ s.resumes, s.kernel.state p = .READY ∧ Restored own p b s.kernel

namespace SigInv

/-- An event that does nothing to `p`. -/
theorem keep (h : SigInv im own p s) (hk : KeepsSignals p s.kernel k') (hready : LeavesReady p s.kernel k')
    (hmem : ∀ x, Protected own p s x → k'.mem x = s.kernel.mem x) : SigInv im own p { s with kernel := k' } := by
  refine ⟨h.active.keep hk.hi_sig ?_ ?_, ?_⟩
  · intro fr hfr
    have e : k'.esp p = s.kernel.esp p := hk.esp
    rw [e]
    exact h.active.below fr hfr
  · intro fr hfr x hx
    exact hmem x (.inr ⟨fr, hfr, hx⟩)
  · intro b hb
    obtain ⟨hst, hr⟩ := h.resuming b hb
    obtain ⟨hst', hirc⟩ := hready hst
    refine ⟨hst', hk.esp.trans hr.esp, hk.hi_sig.trans hr.hi_sig, hirc.trans hr.irc, ?_⟩
    intro x hown hx
    exact (hmem x (.inl ⟨b, hb, hown, hx⟩)).trans (hr.mem x hown hx)

/-- An event of `p` itself, which enters the kernel with its context at `esp`. -/
theorem entered (h : SigInv im own p s) (k1 : Kernel) {esp : Word} (hrun : s.kernel.state p = .RUNNING)
    (hbelow : BelowFrames p s esp) (hesp : k1.esp p = esp) (hhi : k1.hi_sig p = s.kernel.hi_sig p)
    (hk : KeepsSignals p k1 k') (hmem : ∀ x, Protected own p s x → k'.mem x = s.kernel.mem x) :
    SigInv im own p { s with kernel := k' } := by
  refine ⟨h.active.keep (hk.hi_sig.trans hhi) ?_ ?_, ?_⟩
  · intro fr hfr
    have e : k'.esp p = esp := hk.esp.trans hesp
    rw [e]
    exact hbelow fr hfr
  · intro fr hfr x hx
    exact hmem x (.inr ⟨fr, hfr, hx⟩)
  · intro b hb
    rw [(h.resuming b hb).1] at hrun
    cases hrun

/-- The matching return. -/
theorem sigreturn (h : SigInv im own p s) (k1 : Kernel) (hmem : k1.mem = s.kernel.mem)
    (hret : ∃ fr ∈ s.frames.head?, k1.arg p 0 = getFrame s.kernel.mem (fr.base p) .old_sp)
    (hserve : serve im k1 p (some .SIGRETURN) = some k') :
    SigInv im own p ⟨k', s.frames.tail, s.frames.head?.map (·.before)⟩ := by
  change ready (Xeros.sigreturn k1 p (k1.arg p 0)) p = some k' at hserve
  obtain ⟨fr, hfr, hsp⟩ := hret
  obtain ⟨fs, hfs⟩ : ∃ fs, s.frames = fr :: fs := by
    cases hs : s.frames with
    | nil =>
      rw [hs] at hfr
      cases hfr
    | cons fr' fs =>
      rw [hs] at hfr
      cases hfr
      exact ⟨fs, rfl⟩
  have hactive := h.active
  rw [hfs] at hactive
  have hrestored : Restored own p fr.before k' := by
    obtain ⟨h1, h2, h3, h4⟩ := hactive.1.sigreturn hmem hsp
    have e := ready_eq hserve
    refine ⟨?_, ?_, ?_, fun x hown hx => ?_⟩
    · rw [e]
      exact h1
    · rw [e]
      exact h2
    · rw [e]
      exact h3
    · rw [e]
      exact h4 x hown hx
  have hready : k'.state p = .READY := by
    rw [ready_eq hserve]
    exact Function.update_self ..
  have hintact : Intact own p fs fr.before k' := by
    intro fr' hfr' x hx
    rw [ready_eq hserve]
    change k1.mem x = fr.before.mem x
    rw [hmem]
    exact hactive.2.1 fr' hfr' x hx
  rw [hfs]
  refine ⟨hactive.2.2.restored hrestored hintact, ?_⟩
  rintro b ⟨⟩
  exact ⟨hready, hrestored⟩

/-- `p` is switched to, with or without a delivery. -/
theorem resume (h : SigInv im own p s) (hroom : 68 ≤ s.kernel.esp p) :
    SigInv im own p ⟨Xeros.resume im s.kernel p,
      if Deliverable s.kernel p then ⟨sig_to_deliver (s.kernel.pending_sig p), s.kernel⟩ :: s.frames else s.frames,
      none⟩ := by
  refine ⟨?_, fun b hb => ?_⟩
  · have hrun {k : Kernel} {fs : List SigFrame} (hk : Active im own p k fs) :
        Active im own p (switch_to { k with state := Function.update k.state p .RUNNING } p) fs := by
      refine Active.switch_to (hk.keep rfl ?_ ?_)
      · exact hk.below
      · intro fr hfr x hx
        rfl
    apply hrun
    by_cases hd : Deliverable s.kernel p
    · rw [if_pos hd]
      exact h.active.deliver hd hroom
    · rw [if_neg hd, deliver_signal_none hd]
      exact h.active
  · cases hb

/-- Every event of a properly nested run keeps the invariant. -/
theorem step {e : SigEvent} (h : SigInv im own p s) (hok : Nested im own p s e) (ht : sigStep im p e s = some s') :
    SigInv im own p s' := by
  cases e with
  | user f =>
    have hmem := hok s' ht
    cases ht
    exact h.keep (.of_eq rfl rfl rfl) (fun hst => ⟨hst, rfl⟩) hmem
  | keyboard codes =>
    have hmem := hok.1 s' ht
    have hready := hok.2 s' ht
    obtain ⟨⟨k1, t⟩, hl, ht⟩ := Option.bind_eq_some_iff.1 ht
    cases ht
    exact h.keep (KeepsSignals.keyboard_lower hl) hready hmem
  | select =>
    obtain ⟨⟨k1, r⟩, hsel, ht⟩ := Option.bind_eq_some_iff.1 ht
    cases ht
    obtain ⟨hstate, hirc, hmem⟩ := select_state (p := p) hsel
    refine h.keep (.of_moves (Moves.select hsel)) ?_ ?_
    · intro hst
      exact ⟨hstate hst, congrFun hirc p⟩
    · intro x _
      rw [hmem]
  | timer q esp eax =>
    obtain ⟨hrun, hmem, hown⟩ := hok
    have hmem := hmem s' ht
    obtain ⟨k1, hserve, ht'⟩ := Option.bind_eq_some_iff.1 ht
    cases ht'
    have hk := Moves.serve_timer hserve
    by_cases hqp : q = p
    · subst hqp
      rw [if_pos rfl] at hown
      exact h.entered (timer_entry s.kernel q esp eax) hrun hown (Function.update_self ..) rfl (.of_moves hk) hmem
    · rw [if_neg hqp] at hown
      have hentry : KeepsSignals p s.kernel (timer_entry s.kernel q esp eax) :=
        .of_eq (Function.update_of_ne (Ne.symm hqp) ..) rfl rfl
      exact h.keep (hentry.trans (.of_moves hk)) (hown _ ht) hmem
  | syscall q esp =>
    obtain ⟨hrun, hused, hok⟩ := hok
    have ht' := ht
    obtain ⟨k1, hserve, ht'⟩ := Option.bind_eq_some_iff.1 ht'
    by_cases hqp : q = p
    · subst hqp
      rw [if_pos rfl] at hok
      obtain ⟨hbelow, hok⟩ := hok
      by_cases hret : requested_by s.kernel q esp = some .SIGRETURN
      · rw [if_pos hret] at hok
        simp only [hret, and_self, if_true] at ht'
        cases ht'
        rw [hret] at hserve
        exact h.sigreturn (syscall_entry s.kernel q esp).1 rfl hok hserve
      · rw [if_neg hret] at hok
        have hmem := hok s' ht
        simp only [hret, and_false, if_false] at ht'
        cases ht'
        have hk : KeepsSignals q (syscall_entry s.kernel q esp).1 k1 :=
          KeepsSignals.serve hused (fun hr => absurd hr hret) hserve
        exact h.entered (syscall_entry s.kernel q esp).1 hrun hbelow (Function.update_self ..) rfl hk hmem
    · rw [if_neg hqp] at hok
      have hmem := hok.1 s' ht
      have hready := hok.2 s' ht
      simp only [hqp, false_and, if_false] at ht'
      cases ht'
      have hentry : KeepsSignals p s.kernel (syscall_entry s.kernel q esp).1 :=
        .of_eq (Function.update_of_ne (Ne.symm hqp) ..) rfl rfl
      exact h.keep (hentry.trans (.serve hused (fun _ => hqp) hserve)) hready hmem
  | dispatch q =>
    obtain ⟨hst, hok⟩ := hok
    by_cases hqp : q = p
    · subst hqp
      rw [if_pos rfl] at hok
      simp only [sigStep, if_true] at ht
      cases ht
      exact h.resume hok
    · rw [if_neg hqp] at hok
      have hmem := hok s' ht
      simp only [sigStep, if_neg hqp] at ht
      cases ht
      refine h.keep (.resume hqp) ?_ hmem
      intro hready
      rw [resume_state hqp]
      exact ⟨hready, congrFun (resume_irc im s.kernel q) p⟩

end SigInv

end Xeros
