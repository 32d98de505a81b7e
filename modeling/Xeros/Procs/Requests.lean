import Xeros.Procs.Calls
import Xeros.Msg.Exchange
import Xeros.Kbd.Devices
/-!
# Every request keeps processes queued

`ready` is right for a process on no list. `KILL` and the keyboard interrupt
call it on whatever process they find, and `send` on a receiver whose from-pid
cell reads 0. The conditions of this module say when that process is on no
list; under them every request keeps `Sound`.
-/

namespace Xeros

open Links Kernel

variable {im : Image} {k k' : Kernel} {partner : Idx → Word} {f : Queue → List Idx} {p : Idx}

/-! ## Conditions -/

/-- No signal is recorded for a process that waits on a list other than the ready queue. -/
def KillOk (k : Kernel) (partner : Idx → Word) (pid sig_no : Word) : Prop :=
  ∀ q ∈ killed k pid sig_no, k.state q ≠ .SENDING ∧ k.state q ≠ .SLEEPING ∧ (k.state q = .RECEIVING → partner q = 0)

/-- The destination of a `send` does not wait for another process with a from-pid cell that reads 0. -/
def SendOk (k : Kernel) (partner : Idx → Word) (p : Idx) (dest : Word) : Prop :=
  ∀ d, pidMapLookup k dest = some (pcbIndex d) → k.state d = .RECEIVING → from_cell k d = 0 → partner d ≠ 0 →
    ∃ is, Chain k.links (.head (.receivers p)) is ∧ ∃ i ∈ is, k.pid i = dest

/-- No interrupt completes a read of a process that is not blocked on one. -/
def InterruptOk (k : Kernel) (codes : List Byte) : Prop :=
  k.kbd.ps.ch_read < k.kbd.ps.buf_len → ReadEnds (keyboard_fill k.kbd codes) →
    ∀ p ∈ k.kbd.ps.pcb, k.state p = .READING

instance (k : Kernel) (partner : Idx → Word) (pid sig_no : Word) : Decidable (KillOk k partner pid sig_no) :=
  inferInstanceAs (Decidable (∀ q ∈ killed k pid sig_no, _))

/-- The condition on a request of `p`. -/
def RequestOk (k : Kernel) (partner : Idx → Word) (p : Idx) : Request → Prop
  | .SEND => SendOk k partner p (k.arg p 0)
  | .KILL => KillOk k partner (k.arg p 0) (k.arg p 1)
  | _ => True

/-- The pid that a `SEND` or `RECV` of `p` names. -/
def named (k : Kernel) (p : Idx) : Request → Option Word
  | .SEND => some (k.arg p 0)
  | .RECV => some (k.mem.load32 (k.arg p 0))
  | _ => none

/-- The requests that leave the queues of senders and receivers alone. -/
def Quiet (r : Request) : Prop := r ∉ [Request.SEND, .RECV, .STOP]

/-! ## Signals and interrupts -/

namespace Sound

/-- Nothing that matters changes. -/
theorem same (h : Sound k partner f) (hlinks : k'.links = k.links) (hstate : k'.state = k.state) (hpid : k'.pid = k.pid)
    (hmap : k'.pidMap = k.pidMap) : Sound k' partner f := by
  refine ⟨?_, ?_⟩
  · rw [hlinks, hstate, hpid]
    exact h.queued
  · rw [hmap, hpid, hstate]
    exact h.map

theorem drives (h : Sound k partner f) (hd : Drives k k') : Sound k' partner f := by
  apply h.same
  · rw [hd]
    rfl
  · rw [hd]
  · rw [hd]
  · rw [hd]

/-- Blocked on no list. -/
theorem rest (h : Sound k partner f) (hp : k.state p = .RUNNING) {st : PState} (hst : ¬Listed st (partner p))
    (hused : st ≠ .STOPPED) : Sound { k with state := Function.update k.state p st } partner f :=
  ⟨h.queued.rest (h.running hp) hst fun e => absurd e hused,
    h.map.update (by rw [hp]; simp) hused⟩

/-- `ready` of any process on no list, and a return value for it. -/
theorem unblock (h : Sound k partner f) (hp : ∀ q, p ∉ f q) (hused : k.state p ≠ .STOPPED)
    (hr : Xeros.ready k p = some k') (rc : Word) :
    (∃ f', Sound { k' with irc := Function.update k'.irc p rc } partner f' ∧ SameMessages f f') ∧
      ∀ i, i ≠ p → k'.state i = k.state i := by
  obtain ⟨k1, hr1, h1⟩ := h.ready hp hused
  cases Option.some.inj (hr1.symm.trans hr)
  refine ⟨⟨_, ⟨h1.queued, h1.map⟩, .ready f _⟩, ?_⟩
  intro i hi
  rw [ready_eq hr]
  exact Function.update_of_ne hi ..

theorem signal {pid sig_no : Word} {rc : Int} (h : Sound k partner f) (hok : KillOk k partner pid sig_no)
    (hs : Xeros.signal k pid sig_no = some (k', rc)) :
    (∃ f', Sound k' partner f' ∧ SameMessages f f') ∧ ∀ i, k.state i = .RUNNING → k'.state i = .RUNNING := by
  rcases signal_cases hs with rfl | ⟨q, hkilled, hend⟩
  · exact ⟨⟨f, h, .refl f⟩, fun i hi => hi⟩
  have h1 : Sound (signalled k q sig_no) partner f := ⟨h.queued, h.map⟩
  rcases hend with rfl | ⟨hblocked, k2, v, hr, rfl⟩
  · exact ⟨⟨f, h1, .refl f⟩, fun i hi => hi⟩
  obtain ⟨hsend, hsleep, hrecv⟩ := hok q hkilled
  have hun : ∀ r, q ∉ f r := by
    apply h.queued.unlisted
    intro hlisted
    cases hst : k.state q with
    | STOPPED => rw [hst] at hlisted; exact hlisted
    | RUNNING => exact absurd (hst ▸ hblocked) (by decide)
    | READY => exact absurd (hst ▸ hblocked) (by decide)
    | SENDING => exact hsend hst
    | RECEIVING => rw [hst] at hlisted; exact hlisted (hrecv hst)
    | SLEEPING => exact hsleep hst
    | READING => rw [hst] at hlisted; exact hlisted
    | WRITING => rw [hst] at hlisted; exact hlisted
    | WAITING => rw [hst] at hlisted; exact hlisted
  have hused : (signalled k q sig_no).state q ≠ .STOPPED := fun hst => absurd (hst ▸ hblocked) (by decide)
  obtain ⟨h2, hothers⟩ := h1.unblock hun hused hr v
  refine ⟨h2, fun i hi => ?_⟩
  have hiq : i ≠ q := by
    rintro rfl
    exact absurd (hi ▸ hblocked) (by decide)
  exact (hothers i hiq).trans hi

theorem keyboard_lower {codes : List Byte} {t : List Touch} (h : Sound k partner f) (hok : InterruptOk k codes)
    (hl : Xeros.keyboard_lower k codes = some (k', t)) :
    (∃ f', Sound k' partner f' ∧ SameMessages f f') ∧ ∀ i, Runs k i → Runs k' i := by
  by_cases hend : k.kbd.ps.ch_read < k.kbd.ps.buf_len ∧ ReadEnds (keyboard_fill k.kbd codes)
  · rcases keyboard_lower_cases hl with ⟨hge, -⟩ | ⟨-, p, k1, rc, t1, xs, ended, rest, hp, hc, hfin⟩
    · exact absurd hend.1 hge
    have hreading := hok hend.1 hend.2 p hp
    have e := hc.frame
    have hnext1 : k1.next = k.next := by
      rw [e]
      rfl
    have hstate1 : k1.state = k.state := by
      rw [e]
      rfl
    have h1 : Sound k1 partner f := by
      apply h.same
      · rw [e]
        rfl
      · exact hstate1
      · rw [e]
        rfl
      · rw [e]
        rfl
    rcases hfin with ⟨-, rfl, -⟩ | ⟨-, hr, -⟩
    · refine ⟨⟨f, h1, .refl f⟩, ?_⟩
      rintro i ⟨hi, hn⟩
      exact ⟨by rw [hstate1]; exact hi, by rw [hnext1]; exact hn⟩
    · have hun : ∀ q, p ∉ f q := h.queued.unlisted (by rw [hreading]; exact id)
      obtain ⟨k2, hr2, hq2, hnext⟩ := h1.queued.ready hun
      cases Option.some.inj (hr2.symm.trans hr)
      obtain ⟨k3, hr3, h3⟩ := h1.ready hun (by rw [hstate1, hreading]; simp)
      cases Option.some.inj (hr3.symm.trans hr)
      refine ⟨⟨_, h3, .ready f _⟩, ?_⟩
      rintro i ⟨hi, hn⟩
      have hip : i ≠ p := ne_of_apply_ne k.state (by simp [hi, hreading])
      refine ⟨?_, ?_⟩
      · rw [ready_eq hr]
        refine (Function.update_of_ne hip ..).trans ?_
        rw [hstate1]
        exact hi
      · rw [hnext i hip (h.running hi), hnext1]
        exact hn
  · have e := keyboard_lower_idle hl hend
    refine ⟨⟨f, ?_, .refl f⟩, ?_⟩
    · apply h.same
      · rw [e]
        rfl
      · rw [e]
      · rw [e]
      · rw [e]
    · rintro i ⟨hi, hn⟩
      rw [e]
      exact ⟨hi, hn⟩

/-- A destination that is not on the caller's queue and whose cell reads 0 receives from any. -/
theorem send_cell {dest : Word} (h : Sound k partner f) (hok : SendOk k partner p dest) :
    ∀ d, pidMapLookup k dest = some (pcbIndex d) → k.state d = .RECEIVING → from_cell k d = 0 →
      (∀ j ∈ f (.receivers p), k.pid j ≠ dest) → partner d = 0 := by
  intro d hl hst hcell hnone
  by_contra h0
  obtain ⟨is, hchain, i, hi, hpid⟩ := hok d hl hst hcell h0
  rw [hchain.unique (h.queued.lists.chain (.receivers p))] at hi
  exact hnone i hi hpid

/-! ## Requests -/

/-- A request of the running process keeps everything in its place, and most of
them the message queues; a caller that is to be made ready is still running. -/
theorem handle_request {r : Request} {tr : Option Idx} (h : Sound k partner f) (hp : Runs k p)
    (hok : RequestOk k partner p r) (hnamed : ∀ w, named k p r = some w → partner p = w)
    (hh : Xeros.handle_request im k p r = some (k', tr)) :
    (∃ f', Sound k' partner f' ∧ (Quiet r → SameMessages f f')) ∧ ∀ q, tr = some q → k'.state q = .RUNNING := by
  have hrun := hp.1
  have hback {k1 : Kernel} {f1 : Queue → List Idx} (h1 : Sound k1 partner f1) (hsame : SameMessages f f1)
      (hst : k1.state p = .RUNNING) (e : some (k1, some p) = some (k', tr)) :
      (∃ f', Sound k' partner f' ∧ (Quiet r → SameMessages f f')) ∧ ∀ q, tr = some q → k'.state q = .RUNNING := by
    cases e
    refine ⟨⟨f1, h1, fun _ => hsame⟩, ?_⟩
    rintro q ⟨⟩
    exact hst
  have hgone {k1 : Kernel} {f1 : Queue → List Idx} (h1 : Sound k1 partner f1) (hsame : Quiet r → SameMessages f f1)
      (e : some (k1, (none : Option Idx)) = some (k', tr)) :
      (∃ f', Sound k' partner f' ∧ (Quiet r → SameMessages f f')) ∧ ∀ q, tr = some q → k'.state q = .RUNNING := by
    cases e
    refine ⟨⟨f1, h1, hsame⟩, ?_⟩
    rintro q ⟨⟩
  cases r with
  | TIME_INT => exact hgone h (fun _ => .refl f) hh
  | CREATE =>
    obtain ⟨⟨pid, k1⟩, hc, hh⟩ := Option.bind_eq_some_iff.1 hh
    obtain ⟨⟨f1, h1, hsame⟩, -, hst⟩ := h.create hc
    have h2 : Sound (set_irc k1 p pid) partner f1 := ⟨h1.queued, h1.map⟩
    refine hback h2 hsame ?_ hh
    exact (hst p (by rw [hrun]; simp)).trans hrun
  | YIELD => exact hback h (.refl f) hrun hh
  | STOP =>
    obtain ⟨k1, hc, hh⟩ := Option.bind_eq_some_iff.1 hh
    obtain ⟨f1, h1, -⟩ := h.cleanup hrun hc
    exact hgone h1 (by simp [Quiet]) hh
  | GET_PID =>
    have h1 : Sound (set_irc k p (k.pid p)) partner f := ⟨h.queued, h.map⟩
    exact hback h1 (.refl f) hrun hh
  | GET_P_PID =>
    have h1 : Sound (set_irc k p (k.parentPid p)) partner f := ⟨h.queued, h.map⟩
    exact hback h1 (.refl f) hrun hh
  | PUTS => exact hback h (.refl f) hrun hh
  | SEND =>
    obtain ⟨k1, hc, hh⟩ := Option.bind_eq_some_iff.1 hh
    obtain ⟨k1', hs, hcases⟩ := send_cases h hp (hnamed _ rfl) (h.send_cell hok)
    cases Option.some.inj (hs.symm.trans hc)
    rcases hcases with ⟨-, hr, -⟩ | ⟨d, -, -, -, hm, -⟩ | ⟨d, -, -, -, -, hw, -⟩
    · obtain ⟨f1, h1⟩ := hr.sound
      exact hgone h1 (by simp [Quiet]) hh
    · obtain ⟨f1, h1, -⟩ := hm.sound
      exact hgone h1 (by simp [Quiet]) hh
    · obtain ⟨f1, h1⟩ := hw.sound
      exact hgone h1 (by simp [Quiet]) hh
  | RECV =>
    obtain ⟨k1, hc, hh⟩ := Option.bind_eq_some_iff.1 hh
    obtain ⟨k1', hs, hcases⟩ := receive_cases h hp (hnamed _ rfl)
    cases Option.some.inj (hs.symm.trans hc)
    rcases hcases with ⟨-, hr, -⟩ | ⟨d, -, -, -, hm, -⟩ | ⟨-, -, hw, -⟩
    · obtain ⟨f1, h1⟩ := hr.sound
      exact hgone h1 (by simp [Quiet]) hh
    · obtain ⟨f1, h1, -⟩ := hm.sound
      exact hgone h1 (by simp [Quiet]) hh
    · obtain ⟨f1, h1⟩ := hw.sound
      exact hgone h1 (by simp [Quiet]) hh
  | SYS_TIMER =>
    obtain ⟨k1, hc, hh⟩ := Option.bind_eq_some_iff.1 hh
    obtain ⟨⟨f1, h1, hsame⟩, -, hst⟩ := h.tick hc
    exact hback h1 hsame (hst p hrun) hh
  | SLEEP =>
    obtain ⟨k1, hc, hh⟩ := Option.bind_eq_some_iff.1 hh
    obtain ⟨⟨f1, h1, hsame⟩, -⟩ := h.sleep hrun hc
    exact hgone h1 (fun _ => hsame) hh
  | SIGHANDLER =>
    have e : (register_sig_handler im k p (k.arg p 0) (k.arg p 1) (k.arg p 2)).links = k.links ∧
        (register_sig_handler im k p (k.arg p 0) (k.arg p 1) (k.arg p 2)).state = k.state ∧
        (register_sig_handler im k p (k.arg p 0) (k.arg p 1) (k.arg p 2)).pid = k.pid ∧
        (register_sig_handler im k p (k.arg p 0) (k.arg p 1) (k.arg p 2)).pidMap = k.pidMap := by
      rw [register_sig_handler_eq]
      exact ⟨rfl, rfl, rfl, rfl⟩
    exact hback (h.same e.1 e.2.1 e.2.2.1 e.2.2.2) (.refl f) (by rw [e.2.1, hrun]) hh
  | SIGRETURN =>
    have h1 : Sound (sigreturn k p (k.arg p 0)) partner f := ⟨h.queued, h.map⟩
    exact hback h1 (.refl f) hrun hh
  | KILL =>
    obtain ⟨⟨k1, rc⟩, hc, hh⟩ := Option.bind_eq_some_iff.1 hh
    obtain ⟨⟨f1, h1, hsame⟩, hst⟩ := h.signal hok hc
    have h2 : Sound (set_irc k1 p (if rc = -1 then -33 else if rc = -2 then -12 else 0)) partner f1 := ⟨h1.queued, h1.map⟩
    exact hback h2 hsame (hst p hrun) hh
  | SIGWAIT => exact hgone (h.rest hrun id (by simp)) (fun _ => .refl f) hh
  | OPEN =>
    have hd := di_open_drives k p (k.arg p 0)
    exact hback (h.drives hd) (.refl f) (by rw [hd]; exact hrun) hh
  | CLOSE =>
    have hd := di_close_drives k p (k.arg p 0)
    exact hback (h.drives hd) (.refl f) (by rw [hd]; exact hrun) hh
  | WRITE =>
    obtain ⟨⟨rc, k1⟩, hw, hh⟩ := Option.bind_eq_some_iff.1 hh
    obtain ⟨rfl, hd⟩ := di_write_drives hw
    exact hback (h.drives hd) (.refl f) (by rw [hd]; exact hrun) hh
  | READ =>
    obtain ⟨⟨rc, k1⟩, hr, hh⟩ := Option.bind_eq_some_iff.1 hh
    obtain ⟨e, hcases⟩ := di_read_cases hr
    have hlinks : k1.links = k.links := by
      rw [e]
      rfl
    have hpid : k1.pid = k.pid := by rw [e]
    have hmap : k1.pidMap = k.pidMap := by rw [e]
    rcases hcases with ⟨hrc, hst⟩ | ⟨rfl, hst⟩
    · simp only [if_neg hrc] at hh
      exact hback (h.same hlinks hst hpid hmap) (.refl f) (by rw [hst, hrun]) hh
    · have h1 : Sound { k1 with state := Function.update k1.state p .READING } partner f := by
        have hrest : Sound { k with state := Function.update k.state p .READING } partner f := h.rest hrun id (by simp)
        refine hrest.same hlinks ?_ hpid hmap
        change Function.update k1.state p .READING = _
        rw [hst, Function.update_idem]
      exact hgone h1 (fun _ => .refl f) hh
  | IO_CTL =>
    have hd := di_ioctl_drives k p (k.arg p 0) (k.arg p 1) (k.arg p 2)
    exact hback (h.drives hd) (.refl f) (by rw [hd]; exact hrun) hh

end Sound

end Xeros
