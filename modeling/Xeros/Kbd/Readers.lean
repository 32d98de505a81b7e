import Xeros.Procs.Frames
import Xeros.Kbd.Devices
/-!
# Who gets to read

A process is put into state `READING` by its own `READ` request and into state
`STOPPED` by its own `STOP`, and by nothing else: every other function of the
kernel brings no process into these states.
-/

namespace Xeros

/-- Whoever is in state `st` after the step was in it before. -/
def NoNew (st : PState) (k k' : Kernel) : Prop := ∀ i, k'.state i = st → k.state i = st

/-- Whoever reads after the step read before it. -/
def NoNewReader (k k' : Kernel) : Prop := ∀ i, k'.state i = .READING → k.state i = .READING

/-- The states that a single request puts a process into. -/
def Deliberate (st : PState) : Prop := st = .READING ∨ st = .STOPPED

instance : DecidablePred Deliberate := fun st => inferInstanceAs (Decidable (st = .READING ∨ st = .STOPPED))

theorem Deliberate.ne {st st' : PState} (h : Deliberate st) (h' : ¬Deliberate st') : st' ≠ st := by
  rintro rfl
  exact h' h

namespace NoNew
variable {st : PState} {k k1 k' : Kernel} {p : Idx}

theorem of_eq (h : k'.state = k.state) : NoNew st k k' := by
  intro i hi
  rwa [← h]

theorem of_drives (h : Drives k k') : NoNew st k k' := by
  apply of_eq
  rw [h]

theorem trans (h : NoNew st k k1) (h' : NoNew st k1 k') : NoNew st k k' := by
  intro i hi
  exact h i (h' i hi)

/-- One process gets another state. -/
theorem of_update {st' : PState} (h : k'.state = Function.update k.state p st') (hst : st' ≠ st) : NoNew st k k' := by
  intro i hi
  rw [h] at hi
  by_cases hip : i = p
  · subst hip
    rw [Function.update_self] at hi
    exact absurd hi hst
  · rwa [Function.update_of_ne hip] at hi

/-! ## Queues -/

theorem next (k : Kernel) : NoNew st k (Xeros.next k).2 := by
  apply of_eq
  rw [next_eq]

theorem queue_remove {q : Queue} {pid : Word} {r : Option Idx} (h : Xeros.queue_remove k q pid = some (r, k')) :
    NoNew st k k' := by
  obtain ⟨link, -, h⟩ := Option.bind_eq_some_iff.1 h
  apply of_eq
  split at h
  · cases h
    rfl
  · cases h
    exact Kernel.assign_state ..

theorem transfer (k : Kernel) (src dest : Idx) : NoNew st k (send_receive_transfer k src dest) := of_eq rfl

section
variable (hst : Deliberate st)
include hst

theorem ready (h : Xeros.ready k p = some k') : NoNew st k k' := by
  have e := ready_eq h
  have hstate : k'.state = Function.update k.state p .READY := by rw [e]
  exact of_update hstate (hst.ne (by decide))

theorem queue_insert {q : Queue} {st' : PState} (h : Xeros.queue_insert k q p st' = some k') (hst' : ¬Deliberate st') :
    NoNew st k k' := by
  obtain ⟨link, -, h⟩ := Option.bind_eq_some_iff.1 h
  cases h
  refine of_update (p := p) ?_ (hst.ne hst')
  simp only [Kernel.assign_state]

theorem drain {q : Queue} {n : Nat} (h : Xeros.drain q n k = some k') : NoNew st k k' := by
  induction n generalizing k with
  | zero => cases h
  | succ n ih =>
    unfold Xeros.drain at h
    split at h
    · cases h
      exact of_eq rfl
    · obtain ⟨k2, hr, h⟩ := Option.bind_eq_some_iff.1 h
      intro i hi
      have h1 := ready hst hr i (ih h i hi)
      simpa only [Kernel.assign_state] using h1

/-! ## Requests -/

theorem tick {nullDelta : Word} (h : Xeros.tick nullDelta k = some k') : NoNew st k k' := by
  have hloop : ∀ n k, tick_loop nullDelta n k = some k' → NoNew st k k' := by
    intro n
    induction n with
    | zero =>
      intro k h
      cases h
    | succ n ih =>
      intro k h
      unfold tick_loop at h
      split at h
      · split at h
        · cases h
        · cases h
          exact of_eq rfl
      · split at h
        · obtain ⟨k2, hr, h⟩ := Option.bind_eq_some_iff.1 h
          intro i hi
          exact ready hst hr i (ih k2 h i hi)
        · cases h
          exact of_eq rfl
  unfold Xeros.tick at h
  split at h
  · cases h
    exact of_eq rfl
  · intro i hi
    exact hloop _ _ h i hi

theorem sleep {ms : Word} (h : Xeros.sleep k p ms = some k') : NoNew st k k' := by
  unfold Xeros.sleep at h
  simp only [] at h
  split at h
  · obtain ⟨⟨δ, link⟩, -, h⟩ := Option.bind_eq_some_iff.1 h
    cases h
    intro i hi
    by_cases hip : i = p
    · subst hip
      simp only [Function.update_self] at hi
      exact absurd hi (hst.ne (by decide))
    · simp only [Function.update_of_ne hip, Kernel.assign_state] at hi
      split at hi
      · exact hi
      · exact hi
  · exact ready hst h

/-- The two partners of a transfer are made ready. -/
theorem ready_both {a b : Idx} (h : (do let k ← Xeros.ready k a; Xeros.ready k b) = some k') : NoNew st k k' := by
  obtain ⟨k1, h1, h2⟩ := Option.bind_eq_some_iff.1 h
  exact trans (ready hst h1) (ready hst h2)

theorem send {pid : Word} (h : Xeros.send k p pid = some k') : NoNew st k k' := by
  rcases send_steps h with ⟨rc, h⟩ | ⟨r, k1, h1, ⟨d, h⟩ | ⟨d, h⟩⟩
  · intro i hi
    exact ready hst h i hi
  · exact trans (queue_remove h1) (trans (transfer _ _ _) (ready_both hst h))
  · exact trans (queue_remove h1) (queue_insert hst h (by decide))

theorem receive {a : Word} (h : Xeros.receive k p a = some k') : NoNew st k k' := by
  rcases receive_steps h with ⟨rc, h⟩ | ⟨d, h⟩ | rfl | ⟨r, k1, h1, ⟨d, h⟩ | ⟨d, h⟩⟩
  · intro i hi
    exact ready hst h i hi
  · intro i hi
    exact ready_both hst h i hi
  · exact of_update rfl (hst.ne (by decide))
  · exact trans (queue_remove h1) (trans (transfer _ _ _) (ready_both hst h))
  · exact trans (queue_remove h1) (queue_insert hst h (by decide))

theorem signal {pid sig_no : Word} {rc : Int} (h : Xeros.signal k pid sig_no = some (k', rc)) : NoNew st k k' := by
  rcases signal_cases h with rfl | ⟨q, -, rfl | ⟨-, k2, v, hr, rfl⟩⟩
  · exact of_eq rfl
  · exact of_eq rfl
  · intro i hi
    exact ready hst hr i hi

theorem create {im : Image} {func stack parent r : Word} (h : Xeros.create im k func stack parent = some (r, k')) :
    NoNew st k k' := by
  rcases create_cases h with ⟨-, e⟩ | ⟨q, k1, -, -, -, ⟨ptr, esp, hk1⟩, hr⟩
  · apply of_eq
    rw [e]
  · refine trans (of_eq ?_) (ready hst hr)
    rw [hk1]
    rfl

/-- Only the process itself is stopped. -/
theorem cleanup (h : Xeros.cleanup keyboards k p = some k') :
    ∀ i, k'.state i = st → k.state i = st ∨ (i = p ∧ st = .STOPPED) := by
  obtain ⟨k1, k2, k3, h1, h2, h3, h⟩ := cleanup_cases h
  obtain ⟨⟨t, hp⟩, -, h⟩ := Option.bind_eq_some_iff.1 h
  cases h
  have hstate : k3.state = Function.update k2.state p .STOPPED := by rw [h3]
  intro i hi
  have hi3 : k3.state i = st := hi
  rw [hstate] at hi3
  by_cases hip : i = p
  · subst hip
    rw [Function.update_self] at hi3
    exact .inr ⟨rfl, hi3.symm⟩
  · rw [Function.update_of_ne hip] at hi3
    exact .inl (trans (drain hst h1) (drain hst h2) i hi3)

/-! ## The dispatcher -/

/-- A request brings a process into such a state only if it is a `READ` that
blocks or a `STOP`. -/
theorem handle_request {im : Image} {r : Request} {tr : Option Idx} (h : Xeros.handle_request im k p r = some (k', tr)) :
    ∀ i, k'.state i = st → k.state i = st ∨
      (i = p ∧ tr = none ∧ (r = .READ ∧ st = .READING ∨ r = .STOP ∧ st = .STOPPED)) := by
  have hplain : NoNew st k k' → ∀ i, k'.state i = st → k.state i = st ∨
      (i = p ∧ tr = none ∧ (r = .READ ∧ st = .READING ∨ r = .STOP ∧ st = .STOPPED)) := fun hn i hi => .inl (hn i hi)
  cases r with
  | TIME_INT =>
    cases h
    exact hplain (of_eq rfl)
  | CREATE =>
    obtain ⟨⟨r, k1⟩, hc, h⟩ := Option.bind_eq_some_iff.1 h
    cases h
    exact hplain fun i hi => create hst hc i hi
  | YIELD =>
    cases h
    exact hplain (of_eq rfl)
  | STOP =>
    obtain ⟨k1, hc, h⟩ := Option.bind_eq_some_iff.1 h
    cases h
    intro i hi
    rcases cleanup hst hc i hi with hi | ⟨hip, hs⟩
    · exact .inl hi
    · exact .inr ⟨hip, rfl, .inr ⟨rfl, hs⟩⟩
  | GET_PID =>
    cases h
    exact hplain (of_eq rfl)
  | GET_P_PID =>
    cases h
    exact hplain (of_eq rfl)
  | PUTS =>
    cases h
    exact hplain (of_eq rfl)
  | SEND =>
    obtain ⟨k1, hc, h⟩ := Option.bind_eq_some_iff.1 h
    cases h
    exact hplain (send hst hc)
  | RECV =>
    obtain ⟨k1, hc, h⟩ := Option.bind_eq_some_iff.1 h
    cases h
    exact hplain (receive hst hc)
  | SYS_TIMER =>
    obtain ⟨k1, hc, h⟩ := Option.bind_eq_some_iff.1 h
    cases h
    exact hplain (tick hst hc)
  | SLEEP =>
    obtain ⟨k1, hc, h⟩ := Option.bind_eq_some_iff.1 h
    cases h
    exact hplain (sleep hst hc)
  | SIGHANDLER =>
    cases h
    apply hplain
    apply of_eq
    rw [register_sig_handler_eq]
  | SIGRETURN =>
    cases h
    exact hplain (of_eq rfl)
  | KILL =>
    obtain ⟨⟨k1, rc⟩, hc, h⟩ := Option.bind_eq_some_iff.1 h
    cases h
    exact hplain fun i hi => signal hst hc i hi
  | SIGWAIT =>
    cases h
    exact hplain (of_update rfl (hst.ne (by decide)))
  | OPEN =>
    cases h
    exact hplain (of_drives (di_open_drives k p _))
  | CLOSE =>
    cases h
    exact hplain (of_drives (di_close_drives k p _))
  | WRITE =>
    obtain ⟨⟨rc, k1⟩, hw, h⟩ := Option.bind_eq_some_iff.1 h
    obtain ⟨rfl, hd⟩ := di_write_drives hw
    cases h
    exact hplain (of_drives hd)
  | READ =>
    obtain ⟨⟨rc, k1⟩, hr, h⟩ := Option.bind_eq_some_iff.1 h
    rcases (di_read_cases hr).2 with ⟨hrc, e⟩ | ⟨rfl, e⟩
    · simp only [if_neg hrc] at h
      cases h
      exact hplain (of_eq e)
    · simp only [if_pos] at h
      cases h
      intro i hi
      by_cases hip : i = p
      · subst hip
        simp only [Function.update_self] at hi
        exact .inr ⟨rfl, rfl, .inl ⟨rfl, hi.symm⟩⟩
      · simp only [Function.update_of_ne hip, e] at hi
        exact .inl hi
  | IO_CTL =>
    cases h
    exact hplain (of_drives (di_ioctl_drives k p _ _ _))

theorem select {r : Option Idx} (h : Xeros.select k = some (k', r)) : NoNew st k k' := by
  rcases select_cases h with rfl | rfl | ⟨i, hr⟩
  · exact next k
  · exact trans (next k) (next _)
  · exact trans (next k) (trans (next _) (ready hst hr))

theorem resume (im : Image) (k : Kernel) (p : Idx) : NoNew st k (Xeros.resume im k p) := by
  have h : (deliver_signal im k p).state = k.state := by
    unfold deliver_signal
    split <;> rfl
  refine of_update (p := p) (?_ : _ = Function.update k.state p .RUNNING) (hst.ne (by decide))
  rw [← h]
  rfl

theorem dispatch_next {im : Image} {tr : Option Idx} {s : Sys} (h : Xeros.dispatch_next im k tr = some s) :
    NoNew st k s.kernel := by
  obtain ⟨k1, k2, r, h1, h2, h3⟩ := dispatch_next_cases h
  have h01 : NoNew st k k1 := by
    rcases h1 with ⟨-, rfl⟩ | ⟨q, -, hr⟩
    · exact of_eq rfl
    · exact ready hst hr
  refine trans h01 (trans (select hst h2) ?_)
  rcases h3 with ⟨-, rfl⟩ | ⟨q, -, rfl⟩
  · exact of_eq rfl
  · exact resume hst im k2 q

end

end NoNew

namespace NoNewReader
variable {k k' : Kernel} {p : Idx} {im : Image} {tr : Option Idx}

/-- A request brings a new reader only if it is a `READ` that blocks. -/
theorem handle_request {r : Request} (h : Xeros.handle_request im k p r = some (k', tr)) :
    ∀ i, k'.state i = .READING → k.state i = .READING ∨ (i = p ∧ r = .READ ∧ tr = none) := by
  intro i hi
  rcases NoNew.handle_request (.inl rfl) h i hi with hi | ⟨hip, htr, ⟨hr, -⟩ | ⟨-, hs⟩⟩
  · exact .inl hi
  · exact .inr ⟨hip, hr, htr⟩
  · cases hs

theorem dispatch_next {s : Sys} (h : Xeros.dispatch_next im k tr = some s) : NoNewReader k s.kernel :=
  NoNew.dispatch_next (.inl rfl) h

end NoNewReader

end Xeros
