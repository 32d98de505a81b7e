import Xeros.Procs.Moves
import Xeros.Kbd.Exclusive
import Xeros.Procs.Machine
/-!
# What a request does

`handle_request` serves twenty requests, in seven ways: it moves processes,
fails to create one or creates one, stops the caller, edits the caller's
handlers or its context, posts a signal, or drives a device. `Effect` lists
them; what holds in every run of the machine is proved by cases over it.
-/

namespace Xeros

open Kernel

variable {im : Image} {k k1 k' : Kernel} {p q : Idx}

/-! ## Who runs -/

/-- A process that runs after the step ran before it. -/
def Settles (k k' : Kernel) : Prop := ∀ i, k'.state i = .RUNNING → k.state i = .RUNNING

namespace Settles

theorem of_eq (h : k'.state = k.state) : Settles k k' := by
  intro i hi
  rwa [← h]

theorem trans (h : Settles k k1) (h' : Settles k1 k') : Settles k k' := fun i hi => h i (h' i hi)

theorem of_update {st : PState} (h : k'.state = Function.update k.state p st) (hst : st ≠ .RUNNING) : Settles k k' := by
  intro i hi
  rw [h] at hi
  by_cases hip : i = p
  · subst hip
    rw [Function.update_self] at hi
    exact absurd hi hst
  · rwa [Function.update_of_ne hip] at hi

theorem of_drives (h : Drives k k') : Settles k k' := by
  apply of_eq
  rw [h]

theorem ready (h : Xeros.ready k p = some k') : Settles k k' := by
  have e := ready_eq h
  have hstate : k'.state = Function.update k.state p .READY := by rw [e]
  exact of_update hstate (by simp)

theorem next (k : Kernel) : Settles k (Xeros.next k).2 := by
  apply of_eq
  rw [next_eq]

theorem queue_remove {q : Queue} {pid : Word} {r : Option Idx} (h : Xeros.queue_remove k q pid = some (r, k')) :
    Settles k k' := by
  obtain ⟨link, -, h⟩ := Option.bind_eq_some_iff.1 h
  apply of_eq
  split at h
  · cases h
    rfl
  · cases h
    exact assign_state ..

theorem drain {q : Queue} {n : Nat} (h : Xeros.drain q n k = some k') : Settles k k' := by
  induction n generalizing k with
  | zero => cases h
  | succ n ih =>
    unfold Xeros.drain at h
    split at h
    · cases h
      exact of_eq rfl
    · obtain ⟨k2, hr, h⟩ := Option.bind_eq_some_iff.1 h
      refine trans (of_eq ?_) (trans (ready hr) (ih h))
      exact assign_state ..

theorem tick_loop {nullDelta : Word} {n : Nat} (h : Xeros.tick_loop nullDelta n k = some k') : Settles k k' := by
  induction n generalizing k with
  | zero => cases h
  | succ n ih =>
    unfold Xeros.tick_loop at h
    split at h
    · split at h
      · cases h
      · cases h
        exact of_eq rfl
    · split at h
      · obtain ⟨k2, hr, h⟩ := Option.bind_eq_some_iff.1 h
        intro i hi
        exact ready hr i (ih h i hi)
      · cases h
        exact of_eq rfl

theorem tick {nullDelta : Word} (h : Xeros.tick nullDelta k = some k') : Settles k k' := by
  unfold Xeros.tick at h
  split at h
  · cases h
    exact of_eq rfl
  · intro i hi
    exact tick_loop h i hi

theorem signal {pid sig_no : Word} {rc : Int} (h : Xeros.signal k pid sig_no = some (k', rc)) : Settles k k' := by
  rcases signal_cases h with rfl | ⟨q, -, rfl | ⟨-, k2, v, hr, rfl⟩⟩
  · exact of_eq rfl
  · exact of_eq rfl
  · intro i hi
    exact ready hr i hi

theorem create {func stack parent r : Word} (h : Xeros.create im k func stack parent = some (r, k')) : Settles k k' := by
  rcases create_cases h with ⟨-, e⟩ | ⟨q, k1, -, -, -, ⟨ptr, esp, hk1⟩, hr⟩
  · apply of_eq
    rw [e]
  · refine trans (of_eq ?_) (ready hr)
    rw [hk1]
    rfl

end Settles

/-- Nobody runs who did not run before, and `p` runs no more. -/
structure Parks (p : Idx) (k k' : Kernel) : Prop where
  settles : Settles k k'
  parked : k'.state p ≠ .RUNNING

namespace Parks

theorem after (h : Settles k k1) (h' : Parks p k1 k') : Parks p k k' := ⟨h.trans h'.settles, h'.parked⟩

theorem andThen (h : Parks p k k1) (h' : Settles k1 k') : Parks p k k' :=
  ⟨h.settles.trans h', fun hp => h.parked (h' p hp)⟩

theorem of_update {st : PState} (h : k'.state = Function.update k.state p st) (hst : st ≠ .RUNNING) : Parks p k k' := by
  refine ⟨.of_update h hst, ?_⟩
  rwa [h, Function.update_self]

theorem ready (h : Xeros.ready k p = some k') : Parks p k k' := by
  have e := ready_eq h
  have hstate : k'.state = Function.update k.state p .READY := by rw [e]
  exact of_update hstate (by simp)

theorem ready_both (h : (do let k ← Xeros.ready k p; Xeros.ready k q) = some k') : Parks p k k' := by
  obtain ⟨k1, h1, h2⟩ := Option.bind_eq_some_iff.1 h
  exact (ready h1).andThen (.ready h2)

theorem queue_insert {q : Queue} {st : PState} (h : Xeros.queue_insert k q p st = some k') (hst : st ≠ .RUNNING) :
    Parks p k k' := by
  obtain ⟨link, -, h⟩ := Option.bind_eq_some_iff.1 h
  cases h
  refine of_update ?_ hst
  simp only [assign_state]

theorem send {pid : Word} (h : Xeros.send k p pid = some k') : Parks p k k' := by
  rcases send_steps h with ⟨rc, h⟩ | ⟨r, k1, h1, ⟨d, h⟩ | ⟨d, h⟩⟩
  · refine after (.of_eq ?_) (ready h)
    rfl
  · refine after (.queue_remove h1) (after (.of_eq ?_) (ready_both h))
    rfl
  · exact after (.queue_remove h1) (queue_insert h (by simp))

theorem receive {a : Word} (h : Xeros.receive k p a = some k') : Parks p k k' := by
  rcases receive_steps h with ⟨rc, h⟩ | ⟨d, h⟩ | rfl | ⟨r, k1, h1, ⟨d, h⟩ | ⟨d, h⟩⟩
  · refine after (.of_eq ?_) (ready h)
    rfl
  · refine after (.of_eq ?_) (ready_both h)
    rfl
  · exact of_update rfl (by simp)
  · refine after (.queue_remove h1) (after (.of_eq ?_) (ready_both h))
    rfl
  · exact after (.queue_remove h1) (queue_insert h (by simp))

theorem sleep {ms : Word} (h : Xeros.sleep k p ms = some k') : Parks p k k' := by
  unfold Xeros.sleep at h
  simp only [] at h
  split at h
  · obtain ⟨⟨δ, link⟩, -, h⟩ := Option.bind_eq_some_iff.1 h
    cases h
    have hst : PState.SLEEPING ≠ .RUNNING := by simp
    refine of_update ?_ hst
    simp only [assign_state]
    split
    · rfl
    · rfl
  · exact ready h

theorem cleanup (h : Xeros.cleanup keyboards k p = some k') : Parks p k k' := by
  obtain ⟨k1, k2, k3, h1, h2, h3, h⟩ := cleanup_cases h
  obtain ⟨⟨t, hp⟩, -, h⟩ := Option.bind_eq_some_iff.1 h
  cases h
  have hstate : k3.state = Function.update k2.state p .STOPPED := by rw [h3]
  have hfreed : Settles k2 k3 := .of_update hstate (by simp)
  refine after (.drain h1) (after (.drain h2) (after hfreed ⟨.of_eq rfl, ?_⟩))
  change k3.state p ≠ _
  rw [hstate, Function.update_self]
  simp

end Parks

/-! ## The effects -/

/-- A new process takes the next pid but those in use. -/
theorem create_nextPid {func stack parent r : Word} (h : create im k func stack parent = some (r, k')) :
    k' = { k with toHeap := k'.toHeap } ∨ k'.nextPid = r + 1 := by
  unfold create at h
  obtain ⟨⟨ptr, hp⟩, -, h⟩ := Option.bind_eq_some_iff.1 h
  simp only [] at h
  split at h
  · split at h
    · right
      obtain ⟨⟨pid, k1⟩, hnp, h⟩ := Option.bind_eq_some_iff.1 h
      obtain ⟨pid', -, hk1⟩ := Option.bind_eq_some_iff.1 hnp
      cases hk1
      obtain ⟨k2, hins, h⟩ := Option.bind_eq_some_iff.1 h
      obtain ⟨⟨t, h2⟩, -, hk2⟩ := Option.bind_eq_some_iff.1 hins
      cases hk2
      obtain ⟨k3, hrdy, h⟩ := Option.bind_eq_some_iff.1 h
      cases h
      rw [ready_eq hrdy]
      rfl
    · left
      obtain ⟨h', -, h⟩ := Option.bind_eq_some_iff.1 h
      cases h
      rfl
  · left
    cases h
    rfl

/-- What a request of `p` does to the kernel. -/
inductive Effect (im : Image) (k k' : Kernel) (p : Idx) : Request → Prop
  /-- Processes change places. -/
  | moves {r : Request} : r ≠ .CREATE → Moves k k' → Effect im k k' p r
  /-- No process is created. -/
  | refused : k' = { k with toHeap := k'.toHeap, irc := k'.irc } → Effect im k k' p .CREATE
  /-- `q` is taken into use under the pid `pid`, which `p` gets as its return value. -/
  | created (q : Idx) (pid : Word) (k1 k2 : Kernel) :
    firstStopped k = some q → getNextPid_loop k.pidMap PID_FUEL k.nextPid = some pid →
    (∃ h h', insert h k.pidMap pid (pcbIndex q) = some (k1.pidMap, h')) →
    (∃ ptr esp, k1 = reset_pcb { k with
      toHeap := k1.toHeap
      nextPid := pid + 1
      pid := Function.update k.pid q pid
      parentPid := Function.update k.parentPid q (k.pid p)
      stack := Function.update k.stack q ptr
      esp := Function.update k.esp q esp
      pidMap := k1.pidMap } q) →
    ready k1 q = some k2 → k' = set_irc k2 p pid → Effect im k k' p .CREATE
  | stopped : cleanup keyboards k p = some k' → Effect im k k' p .STOP
  /-- The handlers of `p` change. -/
  | registered (handlers : Fin NUM_SIGNAL → Word) (allowed : Word) :
    k' = { k with
      mem := k'.mem
      irc := k'.irc
      sig_handler := Function.update k.sig_handler p handlers
      allowed_sig := Function.update k.allowed_sig p allowed } → Effect im k k' p .SIGHANDLER
  /-- The context of `p` changes. -/
  | returned (esp hi_sig irc : Word) :
    k' = { k with
      esp := Function.update k.esp p esp
      hi_sig := Function.update k.hi_sig p hi_sig
      irc := Function.update k.irc p irc } → Effect im k k' p .SIGRETURN
  | posted (k1 : Kernel) (rc : Int) (v : Word) :
    signal k (k.arg p 0) (k.arg p 1) = some (k1, rc) → k' = set_irc k1 p v → Effect im k k' p .KILL
  /-- The driver, and the descriptors of `p`. -/
  | drives {r : Request} (dvs : Fin NUM_FD → Option Device) : r ∈ [Request.OPEN, .CLOSE, .WRITE, .READ, .IO_CTL] →
    k' = { k with
      mem := k'.mem
      irc := k'.irc
      state := k'.state
      kbd := k'.kbd
      opened_dv := Function.update k.opened_dv p dvs } → Effect im k k' p r

theorem Effect.create {r : Word} (h : Xeros.create im k (k.arg p 0) (k.arg p 1) (k.pid p) = some (r, k1)) :
    Effect im k (set_irc k1 p r) p .CREATE := by
  rcases create_cases h with ⟨-, e⟩ | ⟨q, k2, hfs, hloop, hins, ⟨ptr, esp, hk2⟩, hr⟩
  · apply Effect.refused
    rw [e]
    rfl
  have hr' := ready_eq hr
  have hnext : k2.nextPid = r + 1 := by
    rcases create_nextPid h with e | e
    · -- the state of `q` has changed
      have hst : k1.state q = k.state q := by rw [e]
      rw [hr', firstStopped_spec hfs] at hst
      simp at hst
    · rw [hr'] at e
      exact e
  rw [hnext] at hk2
  exact .created q r k2 k1 hfs hloop hins ⟨ptr, esp, hk2⟩ hr rfl

/-- A call that keeps the descriptors. -/
theorem Effect.of_same {r : Request} (hr : r ∈ [Request.OPEN, .CLOSE, .WRITE, .READ, .IO_CTL])
    (h : k' = { k with mem := k'.mem, irc := k'.irc, state := k'.state, kbd := k'.kbd }) : Effect im k k' p r := by
  refine .drives (k.opened_dv p) hr ?_
  rw [Function.update_eq_self]
  exact h

theorem Effect.of_drives {r : Request} {dvs : Fin NUM_FD → Option Device}
    (hr : r ∈ [Request.OPEN, .CLOSE, .WRITE, .READ, .IO_CTL]) (h : Drives k k')
    (hdv : k'.opened_dv = Function.update k.opened_dv p dvs) : Effect im k k' p r := by
  refine .drives dvs hr ?_
  rw [← hdv]
  have hmem : k'.mem = k.mem := by rw [h]
  have hstate : k'.state = k.state := by rw [h]
  rw [hmem, hstate]
  exact h

theorem di_open_effect (k : Kernel) (p : Idx) (n : Word) : Effect im k (di_open keyboards k p n).2 p .OPEN := by
  rcases di_open_cases k p n with hfail | ⟨fd, d, -, -, -, hdv⟩
  · rw [hfail]
    exact .of_same (by simp) rfl
  · exact .of_drives (by simp) (di_open_drives k p n) hdv

theorem di_close_effect (k : Kernel) (p : Idx) (fd : Word) : Effect im k (di_close keyboards k p fd).2 p .CLOSE := by
  rcases di_close_cases k p fd with ⟨-, hfail⟩ | ⟨i, d, -, -, -, hdv⟩
  · rw [hfail]
    exact .of_same (by simp) rfl
  · exact .of_drives (by simp) (di_close_drives k p fd) hdv

theorem register_sig_handler_effect (k : Kernel) (p : Idx) (signal new_handler old_handler : Word) :
    Effect im k (register_sig_handler im k p signal new_handler old_handler) p .SIGHANDLER := by
  have e := register_sig_handler_eq im k p signal new_handler old_handler
  have hirc := congrArg Kernel.irc e
  refine .registered ((register_sig_handler im k p signal new_handler old_handler).sig_handler p)
    ((register_sig_handler im k p signal new_handler old_handler).allowed_sig p) ?_
  rw [hirc]
  exact e

/-- The effect of a request. No request makes another process run, and the
caller is made ready by the dispatcher or runs no more. -/
theorem handle_request_effect {r : Request} {tr : Option Idx} (hr : r ≠ .TIME_INT)
    (h : handle_request im k p r = some (k', tr)) : Effect im k k' p r ∧
      (tr = some p ∧ Settles k k' ∨ tr = none ∧ Parks p k k') := by
  cases r with
  | TIME_INT => exact absurd rfl hr
  | CREATE =>
    obtain ⟨⟨r, k1⟩, hc, h⟩ := Option.bind_eq_some_iff.1 h
    cases h
    refine ⟨.create hc, .inl ⟨rfl, ?_⟩⟩
    intro i hi
    exact Settles.create hc i hi
  | YIELD =>
    cases h
    exact ⟨.moves (by simp) rfl, .inl ⟨rfl, .of_eq rfl⟩⟩
  | STOP =>
    obtain ⟨k1, hc, h⟩ := Option.bind_eq_some_iff.1 h
    cases h
    exact ⟨.stopped hc, .inr ⟨rfl, .cleanup hc⟩⟩
  | GET_PID =>
    cases h
    exact ⟨.moves (by simp) rfl, .inl ⟨rfl, .of_eq rfl⟩⟩
  | GET_P_PID =>
    cases h
    exact ⟨.moves (by simp) rfl, .inl ⟨rfl, .of_eq rfl⟩⟩
  | PUTS =>
    cases h
    exact ⟨.moves (by simp) rfl, .inl ⟨rfl, .of_eq rfl⟩⟩
  | SEND =>
    obtain ⟨k1, hc, h⟩ := Option.bind_eq_some_iff.1 h
    cases h
    exact ⟨.moves (by simp) (.send hc), .inr ⟨rfl, .send hc⟩⟩
  | RECV =>
    obtain ⟨k1, hc, h⟩ := Option.bind_eq_some_iff.1 h
    cases h
    exact ⟨.moves (by simp) (.receive hc), .inr ⟨rfl, .receive hc⟩⟩
  | SYS_TIMER =>
    obtain ⟨k1, hc, h⟩ := Option.bind_eq_some_iff.1 h
    cases h
    exact ⟨.moves (by simp) (.tick hc), .inl ⟨rfl, .tick hc⟩⟩
  | SLEEP =>
    obtain ⟨k1, hc, h⟩ := Option.bind_eq_some_iff.1 h
    cases h
    exact ⟨.moves (by simp) (.sleep hc), .inr ⟨rfl, .sleep hc⟩⟩
  | SIGHANDLER =>
    cases h
    refine ⟨register_sig_handler_effect k p _ _ _, .inl ⟨rfl, .of_eq ?_⟩⟩
    rw [register_sig_handler_eq]
  | SIGRETURN =>
    cases h
    exact ⟨.returned _ _ _ rfl, .inl ⟨rfl, .of_eq rfl⟩⟩
  | KILL =>
    obtain ⟨⟨k1, rc⟩, hc, h⟩ := Option.bind_eq_some_iff.1 h
    cases h
    refine ⟨.posted k1 rc _ hc rfl, .inl ⟨rfl, ?_⟩⟩
    intro i hi
    exact Settles.signal hc i hi
  | SIGWAIT =>
    cases h
    exact ⟨.moves (by simp) rfl, .inr ⟨rfl, .of_update rfl (by simp)⟩⟩
  | OPEN =>
    cases h
    exact ⟨di_open_effect k p _, .inl ⟨rfl, .of_drives (di_open_drives k p _)⟩⟩
  | CLOSE =>
    cases h
    exact ⟨di_close_effect k p _, .inl ⟨rfl, .of_drives (di_close_drives k p _)⟩⟩
  | WRITE =>
    obtain ⟨⟨rc, k1⟩, hw, h⟩ := Option.bind_eq_some_iff.1 h
    obtain ⟨rfl, hd⟩ := di_write_drives hw
    have hdv : k1.opened_dv = Function.update k.opened_dv p (k.opened_dv p) := by
      rw [Function.update_eq_self]
      exact (KeepsOwner.di_write hw).opened_dv
    cases h
    exact ⟨.of_drives (by simp) hd hdv, .inl ⟨rfl, .of_drives hd⟩⟩
  | READ =>
    obtain ⟨⟨rc, k1⟩, hw, h⟩ := Option.bind_eq_some_iff.1 h
    obtain ⟨e, hcases⟩ := di_read_cases hw
    rcases hcases with ⟨hrc, hst⟩ | ⟨rfl, hst⟩
    · simp only [if_neg hrc] at h
      cases h
      exact ⟨.of_same (by simp) e, .inl ⟨rfl, .of_eq hst⟩⟩
    · simp only [if_pos] at h
      cases h
      refine ⟨.of_same (by simp) ?_, .inr ⟨rfl, ?_⟩⟩
      · rw [e]
      · have hst' : PState.READING ≠ .RUNNING := by simp
        refine .of_update ?_ hst'
        change Function.update k1.state p .READING = _
        rw [hst, Function.update_idem]
  | IO_CTL =>
    cases h
    have hd := di_ioctl_drives k p (k.arg p 0) (k.arg p 1) (k.arg p 2)
    have hdv : (di_ioctl keyboards k p (k.arg p 0) (k.arg p 1) (k.arg p 2)).2.opened_dv =
        Function.update k.opened_dv p (k.opened_dv p) := by
      rw [Function.update_eq_self]
      exact (KeepsOwner.di_ioctl k p (k.arg p 0) (k.arg p 1) (k.arg p 2)).opened_dv
    exact ⟨.of_drives (by simp) hd hdv, .inl ⟨rfl, .of_drives hd⟩⟩

/-! ## Turns of the dispatcher -/

theorem Settles.select {r : Option Idx} (h : Xeros.select k = some (k', r)) : Settles k k' := by
  rcases select_cases h with rfl | rfl | ⟨i, hr⟩
  · exact next k
  · exact trans (next k) (next _)
  · exact trans (next k) (trans (next _) (ready hr))

/-- The end of a turn moves processes and resumes one of them. -/
theorem dispatch_next_effect {tr : Option Idx} {s : Sys} (h : dispatch_next im k tr = some s) :
    ∃ k', Moves k k' ∧ Settles k k' ∧ (tr = some p → k'.state p ≠ .RUNNING) ∧
      (s = ⟨k', none⟩ ∨ ∃ q, s = ⟨resume im k' q, some q⟩) := by
  obtain ⟨k1, k2, r, h1, hsel, hend⟩ := dispatch_next_cases h
  have hs2 : Settles k1 k2 := .select hsel
  have hend' : s = ⟨k2, none⟩ ∨ ∃ q, s = ⟨resume im k2 q, some q⟩ := by
    rcases hend with ⟨-, e⟩ | ⟨q, -, e⟩
    · exact .inl e
    · exact .inr ⟨q, e⟩
  rcases h1 with ⟨rfl, rfl⟩ | ⟨i, rfl, hr⟩
  · exact ⟨k2, .select hsel, hs2, by simp, hend'⟩
  · refine ⟨k2, .trans (.ready hr) (.select hsel), .trans (.ready hr) hs2, ?_, hend'⟩
    rintro ⟨⟩
    exact ((Parks.ready hr).andThen hs2).parked

/-- A turn for a request of `p`: the request has its effect, processes are moved,
and one is resumed. -/
theorem dispatch_request_effect {r : Option Request} {s : Sys} (h : dispatch_request im k p r = some s) :
    (r = some .TIME_INT ∧ s = ⟨switch_to k p, some p⟩) ∨
    ∃ k1 k2, (r = none ∧ k1 = k ∨ ∃ x, r = some x ∧ x ≠ .TIME_INT ∧ Effect im k k1 p x) ∧ Moves k1 k2 ∧ Settles k k2 ∧
      (r ≠ none → k2.state p ≠ .RUNNING) ∧ (s = ⟨k2, none⟩ ∨ ∃ q, s = ⟨resume im k2 q, some q⟩) := by
  cases r with
  | none =>
    have h' : dispatch_next im k none = some s := h
    obtain ⟨k2, hm, hs, -, hend⟩ := dispatch_next_effect (p := p) h'
    exact .inr ⟨k, k2, .inl ⟨rfl, rfl⟩, hm, hs, by simp, hend⟩
  | some x =>
    by_cases hx : x = .TIME_INT
    · subst hx
      exact .inl ⟨rfl, (Option.some.inj h).symm⟩
    rw [dispatch_request_eq im k p hx] at h
    obtain ⟨⟨k1, tr⟩, hh, h⟩ := Option.bind_eq_some_iff.1 h
    obtain ⟨heff, htr⟩ := handle_request_effect hx hh
    obtain ⟨k2, hm, hs, hparked, hend⟩ := dispatch_next_effect (p := p) h
    refine .inr ⟨k1, k2, .inr ⟨x, rfl, hx, heff⟩, hm, ?_, ?_, hend⟩
    · rcases htr with ⟨-, h1⟩ | ⟨-, h1⟩
      · exact h1.trans hs
      · exact h1.settles.trans hs
    · intro _
      rcases htr with ⟨htr, -⟩ | ⟨-, h1⟩
      · exact hparked htr
      · exact (h1.andThen hs).parked

/-- A step: memory changes, a keyboard interrupt, or a turn of the dispatcher. -/
theorem step_cases {e : Event} {s s' : Sys} (h : step im e s = some s') :
    (∃ g, e = .user g ∧ s' = { s with kernel := { s.kernel with mem := g s.kernel.mem } }) ∨
    (∃ codes k t, e = .keyboard codes ∧ keyboard_lower s.kernel codes = some (k, t) ∧ s' = { s with kernel := k }) ∨
    ∃ k p r, trapped s e = some (k, p, r) ∧ dispatch_request im k p r = some s' := by
  have ht : tracedStep im e ⟨s, fun _ => 0⟩ = some ⟨s', partners ⟨s, fun _ => 0⟩ e⟩ := by
    unfold tracedStep
    rw [h]
    rfl
  rcases tracedStep_cases ht with ⟨g, rfl, e⟩ | ⟨codes, k, t, rfl, hl, e⟩ | ⟨k, p, r, sys, htr, hd, e⟩
  · exact .inl ⟨g, rfl, congrArg Traced.sys e⟩
  · exact .inr (.inl ⟨codes, k, t, rfl, hl, congrArg Traced.sys e⟩)
  · obtain rfl : s' = sys := congrArg Traced.sys e
    exact .inr (.inr ⟨k, p, r, htr, hd⟩)

/-- A trap changes what the request is read from, and nothing else. -/
theorem trapped_eq {s : Sys} {e : Event} {r : Option Request} (h : trapped s e = some (k, p, r)) :
    k = { s.kernel with
      esp := Function.update s.kernel.esp p (k.esp p)
      iargs := Function.update s.kernel.iargs p (k.iargs p)
      irc := Function.update s.kernel.irc p (k.irc p) } := by
  cases e with
  | user g => cases h
  | keyboard codes => cases h
  | syscall esp =>
    obtain ⟨q, -, e⟩ := Option.bind_eq_some_iff.1 h
    cases e
    simp
  | timer esp eax =>
    obtain ⟨q, -, e⟩ := Option.bind_eq_some_iff.1 h
    cases e
    simp [timer_entry]

/-! ## Boot -/

/-- `initproc` creates two processes, the second one the idle process, and
resumes the first that is ready. -/
theorem boot_cases {m : Mem} {root idleproc : Word} {s : Sys} (hb : boot im m root idleproc = some s) :
    ∃ pid1 k1 pid2 k2 idle, create im (init im m) root 0x2000 0 = some (pid1, k1) ∧
      create im k1 idleproc 0x2000 0 = some (pid2, k2) ∧ k2.state idle = .READY ∧
      ((next { k2 with idle := some idle }).1 = none ∧ s = ⟨(next { k2 with idle := some idle }).2, none⟩ ∨
        ∃ q, (next { k2 with idle := some idle }).1 = some q ∧
          s = ⟨resume im (next { k2 with idle := some idle }).2 q, some q⟩) := by
  obtain ⟨⟨pid1, k1⟩, hc1, hb⟩ := Option.bind_eq_some_iff.1 hb
  obtain ⟨⟨pid2, k2⟩, hc2, hb⟩ := Option.bind_eq_some_iff.1 hb
  obtain ⟨pcb_index, -, hb⟩ := Option.bind_eq_some_iff.1 hb
  obtain ⟨idle, -, hb⟩ := Option.bind_eq_some_iff.1 hb
  simp only [] at hb
  split at hb
  · next hready =>
    refine ⟨pid1, k1, pid2, k2, idle, hc1, hc2, hready, ?_⟩
    split at hb
    · next k4 hn =>
      cases hb
      rw [hn]
      exact .inl ⟨rfl, rfl⟩
    · next q k4 hn =>
      cases hb
      rw [hn]
      exact .inr ⟨q, rfl, rfl⟩
  · cases hb

end Xeros
