import Xeros.Signal.Priority
/-!
# Delivery is transparent

However deep handlers nest, the return that matches a delivery gives the
interrupted code back what it had, and the switch that follows resumes it as a
switch in place of the delivery would have (`delivery_transparent`).
-/

namespace Xeros

open Runs

variable {im : Image} {own : Set Word} {p : Idx} {s s' : SigSys} {b k : Kernel}

/-- A switch only looks at what a return restores. -/
theorem Restored.switched (h : Restored own p b k) (hd : ¬Deliverable k p) :
    (resume im k p).esp p = b.esp p ∧ getFrame (resume im k p).mem (b.esp p) .eax = b.irc p ∧
    ∀ x ∈ own, b.esp p ≤ x → (resume im k p).mem x = (switch_to b p).mem x := by
  have hesp : (resume im k p).esp p = b.esp p := by
    rw [resume, deliver_signal_none hd]
    exact h.esp
  have hmem : (resume im k p).mem = setFrame k.mem (b.esp p) .eax (b.irc p) := by
    rw [resume, deliver_signal_none hd, ← h.esp, ← h.irc]
    rfl
  refine ⟨hesp, ?_, ?_⟩
  · rw [hmem]
    exact getFrame_setFrame ..
  · intro x hown hx
    have hkx := h.mem x hown hx
    rw [hmem]
    simp only [switch_to, setFrame, Mem.store32, hkx]

/-- In every properly nested run, a matching return restores what the delivery
found, and the memory `own` at and above the stack pointer of that time. -/
theorem delivery_transparent (hs : Reach (sigStep im p) (SigInit p) (Nested im own p) s) : Transparent im own p s := by
  have h := sigInv_reached hs
  refine ⟨?_, ?_⟩
  · intro b hb
    exact (h.resuming b hb).2
  · intro b hb hd
    exact (h.resuming b hb).2.switched hd

/-- The stack of the sample process. -/
def sampleStack : Set Word := { x | 0x2C000 ≤ x ∧ x < 0x31000 }

/-- The handlers of signals 5 and 3 have returned; the process goes on at 0x30000 with 42 in `eax`. -/
theorem delivery_transparent_2_handlers : ∃ s,
    Reach (sigStep sampleImage 0) (SigInit 0) (Nested sampleImage sampleStack 0) s ∧
    (∃ b ∈ s.resumes, b.esp 0 = 0x30000 ∧ b.irc 0 = 42) ∧ Transparent sampleImage sampleStack 0 s := by
  have h0 : Reach (sigStep sampleImage 0) (SigInit 0) (Nested sampleImage sampleStack 0) sampleHandlers :=
    .start sampleHandlers_init
  obtain ⟨s, hs, ht⟩ := h0.exec_ok sampleNested (fun _ _ => sampleNested_nested)
    [.dispatch 0, .syscall 0 0x2F000, .select, .dispatch 0, .syscall 0 0x2E000, .select, .dispatch 0, .syscall 0 0x2D000]
    (fun s => decide (∃ b ∈ s.resumes, b.esp 0 = 0x30000 ∧ b.irc 0 = 42)) (by decide +kernel)
  exact ⟨s, hs, of_decide_eq_true ht, delivery_transparent hs⟩

/-! ## The machine -/

/-- One turn of the dispatcher serves the request, then selects a process and
switches to it, unless it lets the caller run on. -/
theorem dispatch_request_cases {q : Idx} {r : Option Request} {m : Sys} (h : dispatch_request im k q r = some m) :
    ∃ k1, serve im k q r = some k1 ∧ (m.kernel = k1 ∨
      ∃ k2 x, select k1 = some (k2, x) ∧ (m.kernel = k2 ∨ ∃ j, m.kernel = resume im k2 j)) := by
  have hnext {k : Kernel} {tr : Option Idx} (h : dispatch_next im k tr = some m) : ∃ k1,
      ((tr = none ∧ k1 = k) ∨ ∃ i, tr = some i ∧ ready k i = some k1) ∧
      ∃ k2 x, select k1 = some (k2, x) ∧ (m.kernel = k2 ∨ ∃ j, m.kernel = resume im k2 j) := by
    obtain ⟨k1, k2, x, htr, hsel, hend⟩ := dispatch_next_cases h
    refine ⟨k1, htr, k2, x, hsel, ?_⟩
    rcases hend with ⟨-, rfl⟩ | ⟨j, -, rfl⟩
    · exact .inl rfl
    · exact .inr ⟨j, rfl⟩
  unfold dispatch_request at h
  split at h
  · cases h
    exact ⟨_, rfl, .inl rfl⟩
  · next r hr =>
    obtain ⟨⟨k1, tr⟩, hh, h⟩ := Option.bind_eq_some_iff.1 h
    obtain ⟨k2, htr, hsel⟩ := hnext h
    refine ⟨k2, ?_, .inr hsel⟩
    rw [serve]
    · rw [hh]
      rcases htr with ⟨rfl, rfl⟩ | ⟨i, rfl, hready⟩
      · rfl
      · exact hready
    · exact hr
  · obtain ⟨k2, ⟨-, rfl⟩ | ⟨i, hi, -⟩, hsel⟩ := hnext h
    · exact ⟨_, rfl, .inr hsel⟩
    · cases hi

/-- A step of the machine is a sequence of these events. -/
theorem machine_sigStep {init : SigSys → Prop} {m m' : Sys} {e : Event} (hs : Reach (sigStep im p) init Any s)
    (hk : s.kernel = m.kernel) (h : step im e m = some m') :
    ∃ s', Reach (sigStep im p) init Any s' ∧ s'.kernel = m'.kernel := by
  have hsched {s : SigSys} {k1 : Kernel} (hs : Reach (sigStep im p) init Any s) (hk : s.kernel = k1)
      (hend : m'.kernel = k1 ∨ ∃ k2 x, select k1 = some (k2, x) ∧ (m'.kernel = k2 ∨ ∃ j, m'.kernel = resume im k2 j)) :
      ∃ s', Reach (sigStep im p) init Any s' ∧ s'.kernel = m'.kernel := by
    rcases hend with hm | ⟨k2, x, hsel, hend⟩
    · exact ⟨s, hs, hk.trans hm.symm⟩
    have h1 : Reach (sigStep im p) init Any { s with kernel := k2 } := by
      refine hs.next (e := .select) trivial ?_
      simp only [sigStep]
      rw [hk, hsel]
      rfl
    rcases hend with hm | ⟨j, hm⟩
    · exact ⟨_, h1, hm.symm⟩
    · obtain ⟨s2, ht, hk2⟩ : ∃ s2, sigStep im p (.dispatch j) { s with kernel := k2 } = some s2 ∧
          s2.kernel = resume im k2 j := by
        simp only [sigStep]
        split
        · exact ⟨_, rfl, rfl⟩
        · exact ⟨_, rfl, rfl⟩
      exact ⟨s2, h1.next trivial ht, hk2.trans hm.symm⟩
  obtain ⟨q, hq, h⟩ := Option.bind_eq_some_iff.1 h
  cases e with
  | user f =>
    cases h
    exact ⟨_, hs.next (e := .user f) trivial rfl, by rw [hk]⟩
  | keyboard codes =>
    obtain ⟨⟨k1, t⟩, hl, h⟩ := Option.bind_eq_some_iff.1 h
    cases h
    refine ⟨{ s with kernel := k1 }, hs.next (e := .keyboard codes) trivial ?_, rfl⟩
    simp only [sigStep]
    rw [hk, hl]
    rfl
  | syscall esp =>
    obtain ⟨k1, hserve, hend⟩ := dispatch_request_cases h
    have hserve' : serve im (syscall_entry m.kernel q esp).1 q (requested_by m.kernel q esp) = some k1 := hserve
    obtain ⟨s1, ht, hk1⟩ : ∃ s1, sigStep im p (.syscall q esp) s = some s1 ∧ s1.kernel = k1 := by
      simp only [sigStep]
      rw [hk, hserve']
      simp only [Option.bind_some, Option.bind_eq_bind]
      split
      · exact ⟨_, rfl, rfl⟩
      · exact ⟨_, rfl, rfl⟩
    exact hsched (hs.next trivial ht) hk1 hend
  | timer esp eax =>
    obtain ⟨k1, hserve, hend⟩ := dispatch_request_cases h
    have ht : sigStep im p (.timer q esp eax) s = some { s with kernel := k1 } := by
      simp only [sigStep]
      rw [hk, hserve]
      rfl
    exact hsched (hs.next trivial ht) rfl hend

/-- Every kernel the machine can be in is one that these events lead to. -/
theorem machine_sigRuns (p : Idx) {boots : Sys → Prop} {m : Sys} (h : Reach (step im) boots Any m) :
    ∃ s, Reach (sigStep im p) (fun s => ∃ m, boots m ∧ s.kernel = m.kernel) Any s ∧ s.kernel = m.kernel := by
  induction h with
  | @start m hm => exact ⟨⟨m.kernel, [], none⟩, .start ⟨m, hm, rfl⟩, rfl⟩
  | next _ _ ht ih =>
    obtain ⟨s, hs, hk⟩ := ih
    exact machine_sigStep hs hk ht

end Xeros
