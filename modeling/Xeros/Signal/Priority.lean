import Xeros.Signal.Nesting
/-!
# Priorities

The handlers that are active have signals that increase inwards, the mask lets
in exactly the signals above the innermost one, and a dispatch delivers the
greatest pending signal whenever one is above it (`signals_prioritized`). A
`KILL` is part of every such run (`nested_kill`).
-/

namespace Xeros

open Runs

variable {im : Image} {own : Set Word} {p q : Idx} {k k' : Kernel} {s s' : SigSys}

/-! ## Deliveries -/

/-- A signal is due exactly when there is one to deliver. -/
theorem SigInv.due_iff (h : SigInv im own p s) : Due p s ↔ Deliverable s.kernel p := by
  rw [Deliverable, meet_ne_zero]
  constructor
  · rintro ⟨i, hpend, habove⟩
    exact ⟨i, hpend, (h.active.mask i).2 habove⟩
  · rintro ⟨i, hpend, hhi⟩
    exact ⟨i, hpend, (h.active.mask i).1 hhi⟩

theorem dispatch_delivers (im : Image) (hd : Deliverable s.kernel p) : ∃ g s', sigStep im p (.dispatch p) s = some s' ∧
    IsGreatest { i | Has (s.kernel.pending_sig p) i } g ∧ s'.frames = ⟨g, s.kernel⟩ :: s.frames ∧
    ∀ i, Has (s'.kernel.pending_sig p) i ↔ Has (s.kernel.pending_sig p) i ∧ i ≠ g := by
  have hpos : s.kernel.pending_sig p ≠ 0 := by
    intro h0
    apply hd
    rw [h0]
    exact BitVec.zero_and
  obtain ⟨hhas, hgreatest⟩ := sig_to_deliver_spec hpos
  refine ⟨sig_to_deliver (s.kernel.pending_sig p), _, if_pos rfl, ⟨hhas, hgreatest⟩, if_pos hd, ?_⟩
  intro i
  have hspec : Delivered s.kernel (deliver_signal im s.kernel p) p _ := deliver_signal_spec hd
  exact hspec.pending i

theorem dispatch_rests (im : Image) (hd : ¬Deliverable s.kernel p) : ∃ s', sigStep im p (.dispatch p) s = some s' ∧
    s'.frames = s.frames ∧ s'.kernel.pending_sig p = s.kernel.pending_sig p := by
  refine ⟨_, if_pos rfl, if_neg hd, ?_⟩
  change (deliver_signal im s.kernel p).pending_sig p = _
  rw [deliver_signal_none hd]

/-! ## Pending signals -/

/-- No pending signal is lost but by a dispatch. -/
theorem step_pending {e : SigEvent} (hok : Nested im own p s e) (he : e ≠ .dispatch p) (ht : sigStep im p e s = some s')
    (i : Fin NUM_SIGNAL) (hi : Has (s.kernel.pending_sig p) i) : Has (s'.kernel.pending_sig p) i := by
  cases e with
  | user f =>
    cases ht
    exact hi
  | keyboard codes =>
    obtain ⟨⟨k1, t⟩, hl, ht⟩ := Option.bind_eq_some_iff.1 ht
    cases ht
    exact (KeepsSignals.keyboard_lower hl).pending i hi
  | select =>
    obtain ⟨⟨k1, r⟩, hsel, ht⟩ := Option.bind_eq_some_iff.1 ht
    cases ht
    exact (KeepsSignals.of_moves (Moves.select hsel)).pending i hi
  | timer q esp eax =>
    obtain ⟨k1, hserve, ht⟩ := Option.bind_eq_some_iff.1 ht
    cases ht
    exact (KeepsSignals.of_moves (Moves.serve_timer hserve)).pending i hi
  | syscall q esp =>
    obtain ⟨k1, hserve, ht⟩ := Option.bind_eq_some_iff.1 ht
    have hkernel : s'.kernel = k1 := by
      by_cases hret : q = p ∧ requested_by s.kernel q esp = some .SIGRETURN
      · simp only [if_pos hret] at ht
        cases ht
        rfl
      · simp only [if_neg hret] at ht
        cases ht
        rfl
    rw [hkernel]
    by_cases hret : requested_by s.kernel q esp = some .SIGRETURN ∧ q = p
    · obtain ⟨hr, rfl⟩ := hret
      rw [hr] at hserve
      rw [ready_eq hserve]
      exact hi
    · exact (KeepsSignals.serve (k := (syscall_entry s.kernel q esp).1) hok.2.1 (fun hr hqp => hret ⟨hr, hqp⟩)
        hserve).pending i hi
  | dispatch q =>
    have hqp : q ≠ p := by
      rintro rfl
      exact he rfl
    simp only [sigStep, if_neg hqp] at ht
    cases ht
    exact (KeepsSignals.resume hqp).pending i hi

/-- A dispatch takes away the pending signal that it delivers, and no other. -/
theorem dispatch_pending (ht : sigStep im p (.dispatch p) s = some s') {i : Fin NUM_SIGNAL}
    (hi : Has (s.kernel.pending_sig p) i) (hgone : ¬Has (s'.kernel.pending_sig p) i) :
    s'.frames = ⟨i, s.kernel⟩ :: s.frames := by
  by_cases hd : Deliverable s.kernel p
  · obtain ⟨g, s1, ht1, -, hframes, hpending⟩ := dispatch_delivers im hd
    cases Option.some.inj (ht1.symm.trans ht)
    have hig : i = g := by
      by_contra hne
      exact hgone ((hpending i).2 ⟨hi, hne⟩)
    rw [hig]
    exact hframes
  · obtain ⟨s1, ht1, -, hpending⟩ := dispatch_rests im hd
    cases Option.some.inj (ht1.symm.trans ht)
    rw [hpending] at hgone
    exact absurd hi hgone

/-! ## `KILL` -/

/-- `signal` changes no memory, and does nothing to a process that is ready but
to its pending signals. -/
theorem signal_ready {pid sig_no : Word} {rc : Int} (h : signal k pid sig_no = some (k', rc)) :
    k'.mem = k.mem ∧ LeavesReady p k k' := by
  rcases signal_cases h with rfl | ⟨j, -, rfl | ⟨hblocked, k2, v, hr, rfl⟩⟩
  · exact ⟨rfl, fun hst => ⟨hst, rfl⟩⟩
  · exact ⟨rfl, fun hst => ⟨hst, rfl⟩⟩
  rw [ready_eq hr]
  refine ⟨rfl, fun hst => ?_⟩
  have hpj : p ≠ j := by
    rintro rfl
    rw [hst] at hblocked
    exact absurd hblocked (Nat.lt_irrefl _)
  exact ⟨(Function.update_of_ne hpj ..).trans hst, Function.update_of_ne hpj ..⟩

/-- A `KILL` by a running process is properly nested; only `p` itself has to make
it from below its frames. -/
theorem nested_kill {esp : Word} (hr : requested_by s.kernel q esp = some .KILL) (hrun : s.kernel.state q = .RUNNING)
    (hused : s.kernel.state p ≠ .STOPPED) (hbelow : q = p → BelowFrames p s esp) : Nested im own p s (.syscall q esp) := by
  have hstep : ∀ s', sigStep im p (.syscall q esp) s = some s' →
      s'.kernel.mem = s.kernel.mem ∧ (q ≠ p → LeavesReady p s.kernel s'.kernel) := by
    intro s' ht
    obtain ⟨k1, hserve, ht⟩ := Option.bind_eq_some_iff.1 ht
    rw [hr] at hserve
    have hret : ¬(q = p ∧ requested_by s.kernel q esp = some .SIGRETURN) := by
      rw [hr]
      rintro ⟨-, ⟨⟩⟩
    simp only [if_neg hret] at ht
    cases ht
    obtain ⟨⟨k2, tr⟩, hh, hserve⟩ := Option.bind_eq_some_iff.1 hserve
    obtain ⟨⟨k3, rc⟩, hsignal, hh⟩ := Option.bind_eq_some_iff.1 hh
    cases hh
    obtain ⟨hmem, hready⟩ := signal_ready (p := p) hsignal
    change ready _ q = some k1 at hserve
    rw [ready_eq hserve]
    refine ⟨hmem, fun hqp hst => ?_⟩
    obtain ⟨hst', hirc⟩ := hready hst
    have hpq : p ≠ q := Ne.symm hqp
    exact ⟨(Function.update_of_ne hpq ..).trans hst', (Function.update_of_ne hpq ..).trans hirc⟩
  have hkeeps : KeepsMemory im own p s (.syscall q esp) := by
    intro s' ht x _
    rw [(hstep s' ht).1]
  refine ⟨hrun, hused, ?_⟩
  by_cases hqp : q = p
  · subst hqp
    rw [if_pos rfl, hr, if_neg (by simp)]
    exact ⟨hbelow rfl, hkeeps⟩
  · rw [if_neg hqp]
    exact ⟨hkeeps, fun s' ht => (hstep s' ht).2 hqp⟩

/-! ## Results -/

theorem sigInv_reached (hs : Reach (sigStep im p) (SigInit p) (Nested im own p) s) : SigInv im own p s := by
  refine hs.inv (SigInv im own p) ?_ fun _ _ _ h hok ht => h.step hok ht
  rintro s ⟨hhi, hframes, hresumes⟩
  refine ⟨?_, ?_⟩
  · rw [hframes]
    intro i
    rw [hhi]
    exact has_all i
  · intro b hb
    rw [hresumes] at hb
    cases hb

/-- In every properly nested run the handlers of `p` are ordered by priority. -/
theorem signals_prioritized (hs : Reach (sigStep im p) (SigInit p) (Nested im ∅ p) s) : Priority im p s := by
  have h := sigInv_reached hs
  refine ⟨h.active.increasing, h.active.mask, ?_, ?_, ?_⟩
  · intro hdue
    exact dispatch_delivers im (h.due_iff.1 hdue)
  · intro hnot
    exact dispatch_rests im fun hd => hnot (h.due_iff.2 hd)
  · intro e s' hok ht i hi hgone
    by_cases he : e = .dispatch p
    · subst he
      exact ⟨rfl, dispatch_pending ht hi hgone⟩
    · exact absurd (step_pending hok he ht i hi) hgone

/-- Process 0 is ready with signal 3 pending. When it runs it makes three
requests: a `KILL` of signal 5 to itself, and a `SIGRETURN` from each handler. -/
def sampleHandlers : SigSys :=
  let word (m : Mem) (a v : Word) : Mem := m.store32 a v
  let trap (m : Mem) (esp request a b : Word) : Mem :=
    word (word (word (word m (esp + 0x2C) request) (esp + 0x30) (esp + 0x80)) (esp + 0x80) a) (esp + 0x84) b
  { kernel := { sampleSys.kernel with
      mem := trap (trap (trap sampleSys.kernel.mem 0x2F000 13 1 5) 0x2E000 12 0x2F000 0) 0x2D000 12 0x30000 0
      state := Function.update sampleSys.kernel.state 0 .READY
      esp := Function.update sampleSys.kernel.esp 0 0x30000
      irc := Function.update sampleSys.kernel.irc 0 42
      allowed_sig := Function.update sampleSys.kernel.allowed_sig 0 0x28
      pending_sig := Function.update sampleSys.kernel.pending_sig 0 0x8
      hi_sig := Function.update sampleSys.kernel.hi_sig 0 0xFFFFFFFF }
    frames := []
    resumes := none }

theorem sampleHandlers_init : SigInit 0 sampleHandlers :=
  ⟨rfl, rfl, rfl⟩

/-- The events of the sample that are seen to be properly nested by computation. -/
def sampleNested (s : SigSys) : SigEvent → Bool
  | .select => true
  | .dispatch q => decide (q = 0 ∧ s.kernel.state 0 = .READY ∧ 68 ≤ s.kernel.esp 0)
  | .syscall q esp => decide (q = 0 ∧ s.kernel.state 0 = .RUNNING ∧ (∀ fr ∈ s.frames.head?, esp ≤ fr.base 0) ∧
      (requested_by s.kernel 0 esp = some .KILL ∨ requested_by s.kernel 0 esp = some .SIGRETURN ∧
        ∃ fr ∈ s.frames.head?, (syscall_entry s.kernel 0 esp).1.arg 0 0 = getFrame s.kernel.mem (fr.base 0) .old_sp))
  | _ => false

theorem sampleNested_nested {e : SigEvent} (h : sampleNested s e = true) : Nested im own 0 s e := by
  cases e with
  | user f => cases h
  | keyboard codes => cases h
  | timer q esp eax => cases h
  | select => trivial
  | dispatch q =>
    obtain ⟨rfl, hst, hroom⟩ := of_decide_eq_true h
    exact ⟨hst, by rwa [if_pos rfl]⟩
  | syscall q esp =>
    obtain ⟨rfl, hrun, hbelow, hr⟩ := of_decide_eq_true h
    have hused : s.kernel.state 0 ≠ .STOPPED := by
      rw [hrun]
      simp
    rcases hr with hr | ⟨hr, hret⟩
    · exact nested_kill hr hrun hused fun _ => hbelow
    · refine ⟨hrun, hused, ?_⟩
      rw [if_pos rfl, if_pos hr]
      exact ⟨hbelow, hret⟩

/-- Signal 5 interrupts the handler of signal 3. -/
theorem signals_prioritized_2_handlers : ∃ s, Reach (sigStep sampleImage 0) (SigInit 0) (Nested sampleImage ∅ 0) s ∧
    s.frames.map (·.sig) = [5, 3] ∧ Priority sampleImage 0 s := by
  have h0 : Reach (sigStep sampleImage 0) (SigInit 0) (Nested sampleImage ∅ 0) sampleHandlers := .start sampleHandlers_init
  obtain ⟨s, hs, ht⟩ := h0.exec_ok sampleNested (fun _ _ => sampleNested_nested)
    [.dispatch 0, .syscall 0 0x2F000, .select, .dispatch 0] (fun s => decide (s.frames.map (·.sig) = [5, 3]))
    (by decide +kernel)
  exact ⟨s, hs, of_decide_eq_true ht, signals_prioritized hs⟩

end Xeros
