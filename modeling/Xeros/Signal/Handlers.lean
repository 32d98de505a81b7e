import Xeros.Signal.Nesting
/-!
# Which signals have a handler

`allowed_sig` is the set of the signals that have a handler, so a signal is
recorded only if there is one (`handlers_known`). But a handler that is removed
while its signal is pending leaves the signal behind: the delivery then starts
`NULL` (`handlers_lost`).
-/

namespace Xeros

open Runs

/-! ## The table of one process -/

/-- The handlers of a process and its sets of signals. -/
structure SigTable where
  handler : Fin NUM_SIGNAL → Word
  allowed : Word
  pending : Word

def Kernel.sigTable (k : Kernel) (p : Idx) : SigTable :=
  { handler := k.sig_handler p, allowed := k.allowed_sig p, pending := k.pending_sig p }

/-- What one step can do to the table; `cleared` are the signals whose handler
the step may remove. -/
inductive SigChange (cleared : Fin NUM_SIGNAL → Prop) (t : SigTable) : SigTable → Prop
  | same : SigChange cleared t t
  /-- A new process has no handlers. -/
  | reset : SigChange cleared t ⟨fun _ => 0, 0, 0⟩
  | register (i : Fin NUM_SIGNAL) (new : Word) : new ≠ 0 → SigChange cleared t
      { t with handler := Function.update t.handler i new, allowed := t.allowed ||| SIG_INT i }
  | clear (i : Fin NUM_SIGNAL) : cleared i → SigChange cleared t
      { t with handler := Function.update t.handler i 0, allowed := t.allowed &&& ~~~SIG_INT i }
  | raise (i : Fin NUM_SIGNAL) : Has t.allowed i → SigChange cleared t { t with pending := t.pending ||| SIG_INT i }
  | deliver (i : Fin NUM_SIGNAL) : SigChange cleared t { t with pending := t.pending &&& ~~~SIG_INT i }

namespace SigTable

/-- The allowed signals are those with a handler. -/
def Allows (t : SigTable) : Prop := ∀ i, Has t.allowed i ↔ t.handler i ≠ 0

/-- Only allowed signals are pending. -/
def Recorded (t : SigTable) : Prop := ∀ i, Has t.pending i → Has t.allowed i

variable {t t' : SigTable} {cleared : Fin NUM_SIGNAL → Prop}

theorem has_zero (i : Fin NUM_SIGNAL) : ¬Has 0 i := by
  simp [Has]

theorem Allows.change (h : t.Allows) (hc : SigChange cleared t t') : t'.Allows := by
  intro j
  cases hc with
  | same => exact h j
  | reset => exact iff_of_false (has_zero j) (not_not.2 rfl)
  | register i new hnew =>
    simp only [has_set]
    by_cases hj : j = i
    · subst hj
      simpa using hnew
    · simp [hj, h j]
  | clear i =>
    simp only [has_clear]
    by_cases hj : j = i
    · subst hj
      simp
    · simp [hj, h j]
  | raise i => exact h j
  | deliver i => exact h j

theorem Recorded.change (h : t.Recorded) (hno : ∀ i, cleared i → ¬Has t.pending i) (hc : SigChange cleared t t') :
    t'.Recorded := by
  intro j hj
  cases hc with
  | same => exact h j hj
  | reset => exact absurd hj (has_zero j)
  | register i new => exact (has_set ..).2 (.inl (h j hj))
  | clear i hi =>
    refine (has_clear ..).2 ⟨h j hj, ?_⟩
    rintro rfl
    exact hno j hi hj
  | raise i hi =>
    rcases (has_set ..).1 hj with hj | rfl
    · exact h j hj
    · exact hi
  | deliver i => exact h j ((has_clear ..).1 hj).1

end SigTable

/-! ## One step -/

/-- A `SIGHANDLER` call that removes the handler of signal `i`: `NULL` is an
accepted handler as long as `freemem` is positive. -/
def Removes (im : Image) (sig new_handler : Word) (i : Fin NUM_SIGNAL) : Prop :=
  sig.toInt = i ∧ new_handler = 0 ∧ 0 < im.freemem.toInt

section
variable {cleared : Fin NUM_SIGNAL → Prop} {im : Image} {k k1 k' : Kernel} {p q : Idx}

theorem Moves.sigTable (h : Moves k k') : k'.sigTable p = k.sigTable p := by
  rw [h]
  rfl

theorem Drives.sigTable (h : Drives k k') : k'.sigTable p = k.sigTable p := by
  rw [h]
  rfl

namespace SigChange

theorem of_eq (h : k'.sigTable p = k.sigTable p) : SigChange cleared (k.sigTable p) (k'.sigTable p) := by
  rw [h]
  exact .same

/-- A step that leaves the table alone comes after. -/
theorem then_eq (h : SigChange cleared (k.sigTable p) (k1.sigTable p)) (e : k'.sigTable p = k1.sigTable p) :
    SigChange cleared (k.sigTable p) (k'.sigTable p) := by
  rwa [e]

/-- More handlers may be removed. -/
theorem imp {t t' : SigTable} {cleared' : Fin NUM_SIGNAL → Prop} (h : SigChange cleared t t')
    (himp : ∀ i, cleared i → cleared' i) : SigChange cleared' t t' := by
  cases h with
  | same => exact .same
  | reset => exact .reset
  | register i new hnew => exact .register i new hnew
  | clear i hi => exact .clear i (himp i hi)
  | raise i hi => exact .raise i hi
  | deliver i => exact .deliver i

theorem create {func stack parent r : Word} (h : Xeros.create im k func stack parent = some (r, k')) :
    SigChange cleared (k.sigTable p) (k'.sigTable p) := by
  rcases create_cases h with ⟨-, e⟩ | ⟨i, k1, -, -, -, ⟨ptr, esp, hk1⟩, hr⟩
  · apply of_eq
    rw [e]
    rfl
  · refine then_eq ?_ (Moves.ready hr).sigTable
    by_cases hip : p = i
    · subst hip
      have e : k1.sigTable p = ⟨fun _ => 0, 0, 0⟩ := by
        rw [hk1]
        simp [Kernel.sigTable, reset_pcb]
      rw [e]
      exact .reset
    · apply of_eq
      rw [hk1]
      simp [Kernel.sigTable, reset_pcb, hip]

theorem cleanup (h : Xeros.cleanup keyboards k q = some k') : k'.sigTable p = k.sigTable p := by
  obtain ⟨k1, k2, k3, h1, h2, h3, h⟩ := cleanup_cases h
  obtain ⟨⟨t, hp⟩, -, h⟩ := Option.bind_eq_some_iff.1 h
  cases h
  have e3 : k3.sigTable p = k2.sigTable p := by
    rw [h3, close_all_eq]
    rfl
  exact e3.trans ((Moves.drain h2).sigTable.trans (Moves.drain h1).sigTable)

theorem signal {pid sig_no : Word} {rc : Int} (h : Xeros.signal k pid sig_no = some (k', rc)) :
    SigChange cleared (k.sigTable p) (k'.sigTable p) := by
  rcases signal_cases h with rfl | ⟨i, hkilled, hend⟩
  · exact .same
  obtain ⟨hsig, hallowed⟩ := killed_spec hkilled
  have hraised : SigChange cleared (k.sigTable p) ((signalled k i sig_no).sigTable p) := by
    by_cases hpi : p = i
    · subst hpi
      have hlt : sig_no.toNat < NUM_SIGNAL := by
        obtain ⟨h0, h32⟩ := hsig
        simp only [NUM_SIGNAL] at h32 ⊢
        rw [BitVec.toInt_eq_toNat_cond] at h0 h32
        split at h0 <;> omega
      have e : (signalled k p sig_no).sigTable p =
          { k.sigTable p with pending := (k.sigTable p).pending ||| SIG_INT (⟨sig_no.toNat, hlt⟩ : Fin NUM_SIGNAL) } := by
        simp [signalled, Kernel.sigTable]
      rw [e]
      refine .raise _ ?_
      obtain ⟨j, hj, hj'⟩ := (meet_ne_zero _ _).1 hallowed
      exact (has_sig_int ⟨sig_no.toNat, hlt⟩ j).1 hj' ▸ hj
    · apply of_eq
      simp [signalled, Kernel.sigTable, hpi]
  rcases hend with rfl | ⟨-, k2, v, hr, rfl⟩
  · exact hraised
  · exact then_eq hraised (Moves.ready hr).sigTable

theorem register_sig_handler (im : Image) (k : Kernel) (p : Idx) (sig new old : Word) :
    SigChange (Removes im sig new) (k.sigTable p) ((Xeros.register_sig_handler im k p sig new old).sigTable p) := by
  unfold Xeros.register_sig_handler
  split
  · next hsig =>
    set i : Fin NUM_SIGNAL := ⟨sig.toInt.toNat, by omega⟩ with hi
    simp only []
    generalize hk1 : (if old ≠ 0 then { k with mem := k.mem.store32 old (k.sig_handler p i) } else k) = k1
    have e1 : k.sigTable p = k1.sigTable p := by
      rw [← hk1]
      split <;> rfl
    rw [e1]
    split
    · exact .same
    · next hlow =>
      by_cases hnew : new = 0
      · subst hnew
        have hi' : sig.toInt = i := by
          rw [hi]
          simp only []
          omega
        have hchange : SigChange (Removes im sig 0) (k1.sigTable p) _ := .clear i ⟨hi', rfl, by simpa using hlow⟩
        simpa [Kernel.sigTable] using hchange
      · have hchange : SigChange (Removes im sig new) (k1.sigTable p) _ := .register i new hnew
        simp only [if_neg hnew]
        simpa [Kernel.sigTable] using hchange
  · exact .same

/-- The one request that removes a handler removes one of the caller. -/
theorem handle_request {r : Request} {tr : Option Idx} (h : Xeros.handle_request im k q r = some (k', tr)) :
    SigChange (fun i => q = p ∧ r = .SIGHANDLER ∧ Removes im (k.arg q 0) (k.arg q 1) i) (k.sigTable p)
      (k'.sigTable p) := by
  have hmoves {k1 : Kernel} {tr' : Option Idx} (hm : Moves k k1) (h : some (k1, tr') = some (k', tr)) :
      k'.sigTable p = k.sigTable p := by
    cases h
    exact hm.sigTable
  have hdrives {k1 : Kernel} {tr' : Option Idx} (hd : Drives k k1) (h : some (k1, tr') = some (k', tr)) :
      k'.sigTable p = k.sigTable p := by
    cases h
    exact hd.sigTable
  cases r with
  | TIME_INT =>
    cases h
    exact .same
  | CREATE =>
    obtain ⟨⟨r, k1⟩, hc, h⟩ := Option.bind_eq_some_iff.1 h
    cases h
    exact then_eq (create hc) rfl
  | YIELD =>
    cases h
    exact .same
  | STOP =>
    obtain ⟨k1, hc, h⟩ := Option.bind_eq_some_iff.1 h
    cases h
    exact of_eq (cleanup hc)
  | GET_PID =>
    cases h
    exact .same
  | GET_P_PID =>
    cases h
    exact .same
  | PUTS =>
    cases h
    exact .same
  | SEND =>
    obtain ⟨k1, hc, h⟩ := Option.bind_eq_some_iff.1 h
    exact of_eq (hmoves (Moves.send hc) h)
  | RECV =>
    obtain ⟨k1, hc, h⟩ := Option.bind_eq_some_iff.1 h
    exact of_eq (hmoves (Moves.receive hc) h)
  | SYS_TIMER =>
    obtain ⟨k1, hc, h⟩ := Option.bind_eq_some_iff.1 h
    exact of_eq (hmoves (Moves.tick hc) h)
  | SLEEP =>
    obtain ⟨k1, hc, h⟩ := Option.bind_eq_some_iff.1 h
    exact of_eq (hmoves (Moves.sleep hc) h)
  | SIGHANDLER =>
    cases h
    by_cases hqp : q = p
    · subst hqp
      exact (register_sig_handler im k q _ _ _).imp fun i hi => ⟨rfl, rfl, hi⟩
    · apply of_eq
      have hpq : p ≠ q := Ne.symm hqp
      rw [register_sig_handler_eq]
      simp [Kernel.sigTable, hpq]
  | SIGRETURN =>
    cases h
    exact .same
  | KILL =>
    obtain ⟨⟨k1, rc⟩, hc, h⟩ := Option.bind_eq_some_iff.1 h
    cases h
    exact then_eq (signal hc) rfl
  | SIGWAIT =>
    cases h
    exact .same
  | OPEN => exact of_eq (hdrives (di_open_drives k q _) h)
  | CLOSE => exact of_eq (hdrives (di_close_drives k q _) h)
  | WRITE =>
    obtain ⟨⟨rc, k1⟩, hw, h⟩ := Option.bind_eq_some_iff.1 h
    obtain ⟨rfl, hd⟩ := di_write_drives hw
    exact of_eq (hdrives hd h)
  | READ =>
    obtain ⟨⟨rc, k1⟩, hr, h⟩ := Option.bind_eq_some_iff.1 h
    have e : k1.sigTable p = k.sigTable p := by
      rw [(di_read_cases hr).1]
      rfl
    simp only [] at h
    split at h
    · cases h
      exact of_eq e
    · cases h
      exact of_eq e
  | IO_CTL => exact of_eq (hdrives (di_ioctl_drives k q _ _ _) h)

/-- A switch delivers at most one signal to the process that is switched to. -/
theorem resume (im : Image) (k : Kernel) (q : Idx) : SigChange cleared (k.sigTable p) ((Xeros.resume im k q).sigTable p) := by
  unfold Xeros.resume deliver_signal
  split
  · by_cases hpq : p = q
    · subst hpq
      have hchange : SigChange cleared (k.sigTable p) _ := .deliver (sig_to_deliver (k.pending_sig p))
      simpa [Kernel.sigTable, switch_to] using hchange
    · apply of_eq
      simp [Kernel.sigTable, switch_to, hpq]
  · exact .same

/-- Keyboard interrupts touch no table. -/
theorem keyboard_lower {codes : List Byte} {t : List Touch} (h : Xeros.keyboard_lower k codes = some (k', t)) :
    k'.sigTable p = k.sigTable p := by
  rw [keyboard_lower_eq h]
  rfl

theorem serve {r : Option Request} (h : Xeros.serve im k q r = some k') :
    SigChange (fun i => q = p ∧ r = some .SIGHANDLER ∧ Removes im (k.arg q 0) (k.arg q 1) i) (k.sigTable p)
      (k'.sigTable p) := by
  unfold Xeros.serve at h
  split at h
  · cases h
    exact .same
  · cases h
    exact .same
  · next r _ =>
    obtain ⟨⟨k1, tr⟩, hh, h⟩ := Option.bind_eq_some_iff.1 h
    have h1 := (handle_request (p := p) hh).imp fun i ⟨hq, hr, hi⟩ =>
      (⟨hq, congrArg some hr, hi⟩ : q = p ∧ some r = some Request.SIGHANDLER ∧ Removes im (k.arg q 0) (k.arg q 1) i)
    simp only [] at h
    split at h
    · exact then_eq h1 (Moves.ready h).sigTable
    · cases h
      exact h1

end SigChange
end

/-! ## Runs -/

section
variable {im : Image} {p : Idx} {s s' : SigSys} {e : SigEvent}

/-- The event removes the handler `p` has for signal `i`. -/
def Clears (im : Image) (p : Idx) (s : SigSys) (e : SigEvent) (i : Fin NUM_SIGNAL) : Prop :=
  match e with
  | .syscall q esp =>
    let k := (syscall_entry s.kernel q esp).1
    q = p ∧ requested_by s.kernel q esp = some .SIGHANDLER ∧ Removes im (k.arg q 0) (k.arg q 1) i
  | _ => False

theorem sigStep_change (ht : sigStep im p e s = some s') :
    SigChange (Clears im p s e) (s.kernel.sigTable p) (s'.kernel.sigTable p) := by
  cases e with
  | user f =>
    cases ht
    exact .same
  | keyboard codes =>
    obtain ⟨⟨k1, t⟩, hl, ht⟩ := Option.bind_eq_some_iff.1 ht
    cases ht
    exact .of_eq (SigChange.keyboard_lower hl)
  | syscall q esp =>
    obtain ⟨k1, hserve, ht⟩ := Option.bind_eq_some_iff.1 ht
    have h1 : SigChange (Clears im p s (.syscall q esp)) (s.kernel.sigTable p) (k1.sigTable p) := .serve hserve
    split at ht
    · cases ht
      exact h1
    · cases ht
      exact h1
  | timer q esp eax =>
    obtain ⟨k1, hserve, ht⟩ := Option.bind_eq_some_iff.1 ht
    cases ht
    have e1 : k1.sigTable p = s.kernel.sigTable p := (Moves.serve_timer hserve).sigTable
    exact .of_eq e1
  | select =>
    obtain ⟨⟨k1, r⟩, hsel, ht⟩ := Option.bind_eq_some_iff.1 ht
    cases ht
    exact .of_eq (Moves.select hsel).sigTable
  | dispatch q =>
    have h1 : SigChange (Clears im p s (.dispatch q)) (s.kernel.sigTable p) ((resume im s.kernel q).sigTable p) :=
      .resume im s.kernel q
    simp only [sigStep] at ht
    split at ht
    · cases ht
      exact h1
    · cases ht
      exact h1

/-- `p` has just been created. -/
def SigCreated (im : Image) (p : Idx) (s : SigSys) : Prop :=
  ∃ k func stack parent pid, create im k func stack parent = some (pid, s.kernel) ∧
    k.state p = .STOPPED ∧ s.kernel.state p ≠ .STOPPED ∧ s.frames = [] ∧ s.resumes = none

theorem SigCreated.sigTable (h : SigCreated im p s) : s.kernel.sigTable p = ⟨fun _ => 0, 0, 0⟩ := by
  obtain ⟨k, func, stack, parent, pid, hc, hbefore, hafter, -⟩ := h
  rcases create_cases hc with ⟨-, e⟩ | ⟨i, k1, -, -, -, ⟨ptr, esp, hk1⟩, hr⟩
  · rw [e] at hafter
    exact absurd hbefore hafter
  · have hpi : p = i := by
      by_contra hne
      apply hafter
      have hstate : k1.state = k.state := by
        rw [hk1]
        rfl
      rw [ready_eq hr]
      simp only [Function.update_of_ne hne, hstate, hbefore]
    subst hpi
    rw [(Moves.ready hr).sigTable, hk1]
    simp [Kernel.sigTable, reset_pcb]

/-- Whatever happens, the allowed signals of a process are those with a handler. -/
theorem allowed_kept (hs : Reach (sigStep im p) (SigCreated im p) Any s) : (s.kernel.sigTable p).Allows := by
  refine hs.inv (fun s => (s.kernel.sigTable p).Allows) ?_ fun _ _ _ h _ ht => h.change (sigStep_change ht)
  intro s h i
  rw [h.sigTable]
  exact iff_of_false (SigTable.has_zero i) (not_not.2 rfl)

/-- No handler is removed while its signal is pending. -/
def KeepsPending (im : Image) (p : Idx) (s : SigSys) (e : SigEvent) : Prop :=
  ∀ i, Clears im p s e i → ¬Has (s.kernel.pending_sig p) i

theorem recorded_kept (hs : Reach (sigStep im p) (SigCreated im p) (KeepsPending im p) s) :
    (s.kernel.sigTable p).Recorded := by
  refine hs.inv (fun s => (s.kernel.sigTable p).Recorded) ?_ fun _ _ _ h hok ht => h.change hok (sigStep_change ht)
  intro s h i hi
  rw [h.sigTable] at hi
  exact absurd hi (SigTable.has_zero i)

end

/-! ## Results -/

/-- The allowed signals of `p` are those with a handler, the pending ones are
among them, and a delivery starts a handler. -/
structure HandlersKnown (im : Image) (p : Idx) (k : Kernel) : Prop where
  allowed : ∀ i, Has (k.allowed_sig p) i ↔ k.sig_handler p i ≠ 0
  pending : ∀ i, Has (k.pending_sig p) i → Has (k.allowed_sig p) i
  delivered : Deliverable k p →
    getFrame (deliver_signal im k p).mem (k.esp p - SIZEOF_SIGNAL_FRAME) .handler ≠ 0

/-- The handler a delivery starts is that of the signal it delivers. -/
theorem delivered_handler {im : Image} {k : Kernel} {p : Idx} (h : Deliverable k p) :
    getFrame (deliver_signal im k p).mem (k.esp p - SIZEOF_SIGNAL_FRAME) .handler =
      k.sig_handler p (sig_to_deliver (k.pending_sig p)) := by
  have h' : k.pending_sig p &&& k.hi_sig p ≠ 0 := h
  rw [deliver_signal, if_pos h']
  simp only []
  rw [getFrame_setFrame_apart _ _ _ (by decide), getFrame_setFrame_apart _ _ _ (by decide),
    getFrame_setFrame_apart _ _ _ (by decide), getFrame_setFrame_apart _ _ _ (by decide), getFrame_setFrame]

/-- In every run from its creation in which `p` removes no handler whose signal
is pending, all its pending signals have handlers. -/
theorem handlers_known {im : Image} {p : Idx} {s : SigSys}
    (hs : Reach (sigStep im p) (SigCreated im p) (KeepsPending im p) s) : HandlersKnown im p s.kernel := by
  have hallowed := allowed_kept (hs.mono fun _ _ _ => trivial)
  have hrecorded := recorded_kept hs
  refine ⟨hallowed, hrecorded, fun hd => ?_⟩
  rw [delivered_handler hd]
  have hpos : s.kernel.pending_sig p ≠ 0 := by
    intro h0
    apply hd
    rw [h0]
    simp
  have hpending := (sig_to_deliver_spec hpos).1
  exact (hallowed _).1 (hrecorded _ hpending)

/-- Process `q`, its context at `esp`, makes a request. -/
def sigCall (q : Idx) (esp : Word) (r : Request) (args : List Word) : List SigEvent :=
  (call esp r args).map fun
    | .user f => .user f
    | .keyboard codes => .keyboard codes
    | .syscall esp => .syscall q esp
    | .timer esp eax => .timer q esp eax

theorem sampleCreated : (create sampleImage (init sampleImage fun _ => 0) 0x5000 0x2000 0).isSome := by decide +kernel

/-- Process 0 is the only one, and has just been created. -/
def sampleNew : SigSys :=
  { kernel := ((create sampleImage (init sampleImage fun _ => 0) 0x5000 0x2000 0).get sampleCreated).2
    frames := []
    resumes := none }

theorem sampleNew_created : SigCreated sampleImage 0 sampleNew := by
  refine ⟨init sampleImage fun _ => 0, 0x5000, 0x2000, 0,
    ((create sampleImage (init sampleImage fun _ => 0) 0x5000 0x2000 0).get sampleCreated).1, ?_, rfl, ?_, rfl, rfl⟩
  · exact (Option.some_get sampleCreated).symm
  · decide +kernel

/-- Process 0 sets handlers for signals 3 and 5, and sends itself signal 5. -/
def sampleSignals : List SigEvent :=
  [.select, .dispatch 0] ++ sigCall 0 0x10000 .SIGHANDLER [3, 0x4000, 0] ++
    [.select, .dispatch 0] ++ sigCall 0 0x10000 .SIGHANDLER [5, 0x4100, 0] ++
    [.select, .dispatch 0] ++ sigCall 0 0x10000 .KILL [1, 5] ++ [.select, .dispatch 0]

/-- No call of `SIGHANDLER` passes `NULL`. -/
def noNull (s : SigSys) : SigEvent → Bool
  | .syscall q esp => (syscall_entry s.kernel q esp).1.arg q 1 != 0
  | _ => true

theorem noNull_keeps {s : SigSys} {e : SigEvent} {im : Image} {p : Idx} (h : noNull s e = true) : KeepsPending im p s e := by
  intro i hi
  cases e with
  | syscall q esp =>
    obtain ⟨-, -, -, hnull, -⟩ := hi
    exact absurd hnull (bne_iff_ne.1 h)
  | _ => exact hi.elim

/-- Process 0 is in its handler for signal 5. -/
theorem handlers_known_2_handlers : ∃ s,
    Reach (sigStep sampleImage 0) (SigCreated sampleImage 0) (KeepsPending sampleImage 0) s ∧
    s.frames.map (·.sig) = [5] ∧ HandlersKnown sampleImage 0 s.kernel := by
  have h0 : Reach (sigStep sampleImage 0) (SigCreated sampleImage 0) (KeepsPending sampleImage 0) sampleNew :=
    .start sampleNew_created
  obtain ⟨s, hs, ht⟩ := h0.exec_ok noNull (fun _ _ => noNull_keeps) sampleSignals
    (fun s => decide (s.frames.map (·.sig) = [5])) (by decide +kernel)
  exact ⟨s, hs, of_decide_eq_true ht, handlers_known hs⟩

/-- In the handler for signal 5 signal 3 becomes pending, and its handler is
removed. After the return signal 3 is delivered to the address 0. -/
theorem handlers_lost : ¬∀ im p s, Reach (sigStep im p) (SigCreated im p) Any s → HandlersKnown im p s.kernel := by
  intro hall
  have h0 : Reach (sigStep sampleImage 0) (SigCreated sampleImage 0) Any sampleNew := .start sampleNew_created
  obtain ⟨s, hs, ht⟩ := h0.exec_any
    (sampleSignals ++ sigCall 0 0xF000 .KILL [1, 3] ++ [.select, .dispatch 0] ++
      sigCall 0 0xF000 .SIGHANDLER [3, 0, 0] ++ [.select, .dispatch 0] ++ sigCall 0 0xF000 .SIGRETURN [0x10000] ++ [.select])
    (fun s => decide (Deliverable s.kernel 0 ∧
      getFrame (deliver_signal sampleImage s.kernel 0).mem (s.kernel.esp 0 - SIZEOF_SIGNAL_FRAME) .handler = 0))
    (by decide +kernel)
  obtain ⟨hd, hnull⟩ := of_decide_eq_true ht
  exact (hall sampleImage 0 s hs).delivered hd hnull

end Xeros
