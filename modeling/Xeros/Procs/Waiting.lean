import Xeros.Lib.RunQueue
import Xeros.Procs.RoundRobin
import Xeros.Procs.Running
import Xeros.Procs.Cleanup
/-!
# How long a ready process waits

The whole machine is a run queue: whatever a request does, it only puts
processes at the end of the ready queue, and a turn of the dispatcher picks from
its front (`step_runQueue`). So a process that is ready runs within as many turns
as there are other processes in front of it (`bounded_waiting`), and the
dispatcher never runs out of processes as long as the idle process makes no
requests (`dispatcher_busy`).
-/

namespace Xeros

open Links Kernel Runs RunQueue

variable {im : Image} {k k1 k' : Kernel} {partner : Idx → Word} {f f' : Queue → List Idx} {p q w : Idx} {s s' : Sys}
  {e : Event} {xs : List Idx}

/-! ## Joining the ready queue -/

theorem readyQueue_eq (h : Family k.links f) : ReadyList k ∧ readyQueue k = f .ready :=
  ReadyList.of_chain (h.chain .ready) (h.nodup .ready)

/-- `xs` are put at the end of the ready queue. -/
def Joins (xs : List Idx) (k k' : Kernel) : Prop := readyQueue k' = readyQueue k ++ xs

namespace Joins

theorem of_links (h : k'.links = k.links) : Joins [] k k' := by
  unfold Joins readyQueue
  rw [h, List.append_nil]

theorem of_family (h : Family k.links f) (h' : Family k'.links f') (hf : f' .ready = f .ready ++ xs) : Joins xs k k' := by
  unfold Joins
  rw [(readyQueue_eq h).2, (readyQueue_eq h').2, hf]

/-- The lists but the ready queue change. -/
theorem of_update {r : Queue} {is : List Idx} (h : Family k.links f) (hr : r ≠ .ready)
    (h' : Family k'.links (Function.update f r is)) : Joins [] k k' := by
  refine of_family h h' ?_
  rw [Function.update_of_ne hr.symm, List.append_nil]

theorem ready (h : Family k.links f) (hp : ∀ r, p ∉ f r) (hr : Xeros.ready k p = some k') : Joins [p] k k' := by
  obtain ⟨k2, hr2, -, h2⟩ := ready_spec h hp
  cases Option.some.inj (hr2.symm.trans hr)
  exact of_family h h2 (Function.update_self ..)

theorem create {func stack parent r : Word} (h : Sound k partner f)
    (hc : Xeros.create im k func stack parent = some (r, k')) : ∃ xs, Joins xs k k' := by
  rcases create_cases hc with ⟨-, e⟩ | ⟨q, k1, hfs, -, -, ⟨ptr, esp, hk1⟩, hrdy⟩
  · refine ⟨[], of_links ?_⟩
    rw [e]
    rfl
  have hstopped := firstStopped_spec hfs
  obtain ⟨hlist, hq⟩ := readyQueue_eq h.queued.lists
  have hun : q ∉ readyQueue k := by
    rw [hq]
    exact h.queued.unlisted (by rw [hstopped]; exact id) .ready
  have hnext : ∀ i ∈ readyQueue k, k1.next i = k.next i := by
    intro i hi
    have hiq : i ≠ q := by
      rintro rfl
      exact hun hi
    rw [hk1]
    exact Function.update_of_ne hiq ..
  obtain ⟨h1, hq1⟩ := hlist.congr (by rw [hk1]; rfl) hnext
  obtain ⟨k2, hr2, -, hq2, -⟩ := h1.ready (hq1 ▸ hun)
  cases Option.some.inj (hr2.symm.trans hrdy)
  refine ⟨[q], ?_⟩
  unfold Joins
  rw [hq2, hq1]

theorem cleanup (h : Sound k partner f) (hp : k.state p = .RUNNING) (hc : Xeros.cleanup keyboards k p = some k') :
    ∃ xs, Joins xs k k' := by
  obtain ⟨k2, h2, -, -, hcleanup⟩ := cleanup_eq h.queued.lists p
  rw [hcleanup] at hc
  obtain ⟨m, -, hc⟩ := Option.bind_eq_some_iff.1 hc
  obtain ⟨⟨t, m'⟩, -, hc⟩ := Option.bind_eq_some_iff.1 hc
  cases hc
  refine ⟨f (.senders p) ++ f (.receivers p), of_family h.queued.lists (gone_lists h2 (h.running hp)) ?_⟩
  rw [cleaned_ready, List.append_assoc]

theorem sleep {ms : Word} (h : Sound k partner f) (hp : k.state p = .RUNNING) (hs : Xeros.sleep k p ms = some k') :
    ∃ xs, Joins xs k k' := by
  have hun := h.running hp
  by_cases hms : sleep_ticks ms = 0
  · have hr : Xeros.ready k p = some k' := by
      unfold Xeros.sleep at hs
      simpa [hms] using hs
    exact ⟨[p], ready h.queued.lists hun hr⟩
  · have hs' := hs
    unfold Xeros.sleep at hs'
    simp only [] at hs'
    rw [if_pos hms] at hs'
    obtain ⟨⟨δ, link⟩, hw, -⟩ := Option.bind_eq_some_iff.1 hs'
    obtain ⟨xs, ys, hsplit, rfl⟩ := sleep_walk_link (h.queued.lists.chain .sleepers) hw
    obtain ⟨k1, hs1, hl, -⟩ := sleep_insert h.queued.lists hun hsplit hms hw
    cases Option.some.inj (hs1.symm.trans hs)
    exact ⟨[], of_update h.queued.lists (by simp) hl⟩

theorem tick {nullDelta : Word} (h : Sound k partner f) (ht : Xeros.tick nullDelta k = some k') :
    ∃ xs, Joins xs k k' := by
  unfold Xeros.tick at ht
  split at ht
  · cases ht
    exact ⟨[], of_links rfl⟩
  · next p hp =>
    set k1 : Kernel := { k with delta := Function.update k.delta p (k.delta p - 1) }
    have h1 : Family k1.links f := h.queued.lists
    obtain ⟨xs, ys, -, hl, -⟩ := Sound.tick_loop h1 ht
    exact ⟨xs, of_family h.queued.lists hl wake_ready⟩

theorem signal {pid sig_no : Word} {rc : Int} (h : Sound k partner f) (hok : KillOk k partner pid sig_no)
    (hs : Xeros.signal k pid sig_no = some (k', rc)) : ∃ xs, Joins xs k k' := by
  rcases signal_cases hs with rfl | ⟨q, hkilled, rfl | ⟨hblocked, k2, v, hr, rfl⟩⟩
  · exact ⟨[], of_links rfl⟩
  · exact ⟨[], of_links rfl⟩
  · obtain ⟨hsend, hsleep, hrecv⟩ := hok q hkilled
    have hun : ∀ r, q ∉ f r := by
      apply h.queued.unlisted
      intro hlisted
      cases hst : k.state q with
      | RECEIVING =>
        rw [hst] at hlisted
        exact hlisted (hrecv hst)
      | READY => exact absurd (hst ▸ hblocked) (by decide)
      | SENDING => exact hsend hst
      | SLEEPING => exact hsleep hst
      | _ =>
        rw [hst] at hlisted
        exact hlisted
    have hjoin : Joins [q] (signalled k q sig_no) k2 := ready h.queued.lists hun hr
    exact ⟨[q], hjoin⟩

theorem keyboard_lower {codes : List Byte} {t : List Touch} (h : Sound k partner f) (hok : InterruptOk k codes)
    (hl : Xeros.keyboard_lower k codes = some (k', t)) : ∃ xs, Joins xs k k' := by
  by_cases hend : k.kbd.ps.ch_read < k.kbd.ps.buf_len ∧ ReadEnds (keyboard_fill k.kbd codes)
  · rcases keyboard_lower_cases hl with ⟨hge, -⟩ | ⟨-, q, k1, rc, t1, ys, ended, rest, hq, hc, hfin⟩
    · exact absurd hend.1 hge
    have hreading := hok hend.1 hend.2 q hq
    have hlinks : k1.links = k.links := by
      rw [hc.frame]
      rfl
    rcases hfin with ⟨-, rfl, -⟩ | ⟨-, hr, -⟩
    · exact ⟨[], of_links hlinks⟩
    · have hun : ∀ r, q ∉ f r := h.queued.unlisted (by rw [hreading]; exact id)
      have hjoin := ready (hlinks.symm ▸ h.queued.lists) hun hr
      refine ⟨[q], ?_⟩
      unfold Joins at hjoin ⊢
      rw [hjoin, of_links hlinks, List.append_nil]
  · refine ⟨[], of_links ?_⟩
    rw [keyboard_lower_idle hl hend]
    rfl

/-- A request puts processes at the end of the ready queue. -/
theorem handle_request {r : Request} {tr : Option Idx} (h : Sound k partner f) (hp : Runs k p)
    (hok : RequestOk k partner p r) (hnamed : ∀ w, named k p r = some w → partner p = w)
    (hh : Xeros.handle_request im k p r = some (k', tr)) : ∃ xs, Joins xs k k' := by
  cases r with
  | CREATE =>
    obtain ⟨⟨pid, k1⟩, hc, hh⟩ := Option.bind_eq_some_iff.1 hh
    cases hh
    obtain ⟨xs, hj⟩ := create h hc
    exact ⟨xs, hj⟩
  | STOP =>
    obtain ⟨k1, hc, hh⟩ := Option.bind_eq_some_iff.1 hh
    cases hh
    exact cleanup h hp.1 hc
  | SEND =>
    obtain ⟨k1, hc, hh⟩ := Option.bind_eq_some_iff.1 hh
    cases hh
    obtain ⟨k1', hs, hcases⟩ := send_cases h hp (hnamed _ rfl) (h.send_cell hok)
    cases Option.some.inj (hs.symm.trans hc)
    rcases hcases with ⟨-, -, hl⟩ | ⟨d, -, -, -, -, -, hl⟩ | ⟨d, -, -, -, -, -, hl⟩
    · exact ⟨[p], of_family h.queued.lists hl (Function.update_self ..)⟩
    · exact ⟨[p, d], of_family h.queued.lists hl (Function.update_self ..)⟩
    · exact ⟨[], of_update h.queued.lists (by simp) hl⟩
  | RECV =>
    obtain ⟨k1, hc, hh⟩ := Option.bind_eq_some_iff.1 hh
    cases hh
    obtain ⟨k1', hs, hcases⟩ := receive_cases h hp (hnamed _ rfl)
    cases Option.some.inj (hs.symm.trans hc)
    rcases hcases with ⟨-, -, hl⟩ | ⟨d, -, -, -, -, -, hl⟩ | ⟨-, -, -, ⟨-, hl⟩ | ⟨-, d, -, hl⟩⟩
    · exact ⟨[p], of_family h.queued.lists hl (Function.update_self ..)⟩
    · exact ⟨[p, d], of_family h.queued.lists hl (Function.update_self ..)⟩
    · exact ⟨[], of_family h.queued.lists hl (List.append_nil _).symm⟩
    · exact ⟨[], of_update h.queued.lists (by simp) hl⟩
  | SYS_TIMER =>
    obtain ⟨k1, hc, hh⟩ := Option.bind_eq_some_iff.1 hh
    cases hh
    exact tick h hc
  | SLEEP =>
    obtain ⟨k1, hc, hh⟩ := Option.bind_eq_some_iff.1 hh
    cases hh
    exact sleep h hp.1 hc
  | KILL =>
    obtain ⟨⟨k1, rc⟩, hc, hh⟩ := Option.bind_eq_some_iff.1 hh
    cases hh
    obtain ⟨xs, hj⟩ := signal h hok hc
    exact ⟨xs, hj⟩
  | SIGHANDLER =>
    cases hh
    refine ⟨[], of_links ?_⟩
    rw [register_sig_handler_eq]
    rfl
  | OPEN =>
    cases hh
    refine ⟨[], of_links ?_⟩
    rw [di_open_drives k p (k.arg p 0)]
    rfl
  | CLOSE =>
    cases hh
    refine ⟨[], of_links ?_⟩
    rw [di_close_drives k p (k.arg p 0)]
    rfl
  | WRITE =>
    obtain ⟨⟨rc, k1⟩, hw, hh⟩ := Option.bind_eq_some_iff.1 hh
    obtain ⟨rfl, hd⟩ := di_write_drives hw
    cases hh
    refine ⟨[], of_links ?_⟩
    rw [hd]
    rfl
  | READ =>
    obtain ⟨⟨rc, k1⟩, hw, hh⟩ := Option.bind_eq_some_iff.1 hh
    obtain ⟨e, -⟩ := di_read_cases hw
    have hlinks : k1.links = k.links := by
      rw [e]
      rfl
    simp only [] at hh
    split at hh
    · cases hh
      exact ⟨[], of_links hlinks⟩
    · cases hh
      exact ⟨[], of_links hlinks⟩
  | IO_CTL =>
    cases hh
    refine ⟨[], of_links ?_⟩
    rw [di_ioctl_drives k p (k.arg p 0) (k.arg p 1) (k.arg p 2)]
    rfl
  | _ =>
    cases hh
    exact ⟨[], of_links rfl⟩

end Joins

/-! ## Turns -/

theorem Selects.pick {r : Option Idx} (h : Selects k k' r) : RunQueue.pick k.idle (readyQueue k) = (r, readyQueue k') := by
  cases h with
  | empty hq hq' =>
    rw [hq, hq']
    rfl
  | first p is hq hidle hq' =>
    rw [hq, hq']
    cases is with
    | nil => rfl
    | cons j js => rw [pick_cons, if_neg hidle]
  | idle i hidle hq hq' =>
    rw [hq, hq']
    rfl
  | skip i p is hidle hq hq' =>
    rw [hq, hq', pick_cons, if_pos hidle]

/-- The scheduler of the machine. -/
def sched (s : Sys) : Sched Idx := ⟨s.cur, readyQueue s.kernel⟩

/-- The event ends the turn of the current process. -/
def endsTurn (s : Sys) (e : Event) : Bool :=
  match trapped s e with
  | some (_, _, r) => decide (r ≠ some .TIME_INT)
  | none => false

/-- The rest of a turn picks a process, after the caller has joined the queue if it is to be made ready. -/
theorem dispatch_next_sched {tr : Option Idx} (h : Sound k partner f) (htr : ∀ p, tr = some p → k.state p = .RUNNING)
    (hd : dispatch_next im k tr = some s) : (readyQueue k ++ tr.toList).Nodup ∧
      sched s = ⟨(pick k.idle (readyQueue k ++ tr.toList)).1, (pick k.idle (readyQueue k ++ tr.toList)).2⟩ := by
  obtain ⟨k1, k2, r, hk1, hsel, hend⟩ := dispatch_next_cases hd
  obtain ⟨f1, h1, hq1, hidle1⟩ : ∃ f1, Sound k1 partner f1 ∧ readyQueue k1 = readyQueue k ++ tr.toList ∧
      k1.idle = k.idle := by
    rcases hk1 with ⟨rfl, rfl⟩ | ⟨p, rfl, hr⟩
    · exact ⟨f, h, (List.append_nil _).symm, rfl⟩
    · have hun := h.running (htr p rfl)
      obtain ⟨k1', hr', h1⟩ := h.ready hun (by rw [htr p rfl]; simp)
      cases Option.some.inj (hr'.symm.trans hr)
      exact ⟨_, h1, Joins.ready h.queued.lists hun hr, by rw [ready_eq hr]⟩
  have hlist := (readyQueue_eq h1.queued.lists).1
  obtain ⟨k2', r', hsel', -, -, hpick⟩ := hlist.select
  cases Option.some.inj (hsel'.symm.trans hsel)
  have e := hpick.pick
  rw [hq1, hidle1] at e
  refine ⟨hq1 ▸ hlist.nodup, ?_⟩
  rw [e]
  rcases hend with ⟨rfl, rfl⟩ | ⟨q, rfl, rfl⟩
  · rfl
  · have hlinks : (resume im k2 q).links = k2.links := by
      rw [resume_eq]
      rfl
    have hq := Joins.of_links hlinks
    unfold Joins at hq
    rw [List.append_nil] at hq
    unfold sched
    rw [hq]

theorem Effect.idle {r : Request} (h : Effect im k k' p r) : k'.idle = k.idle := by
  cases h with
  | moves hr hm => rw [hm]
  | refused h => rw [h]
  | created q pid k1 k2 hfs hloop hins hk1 hr h =>
    obtain ⟨ptr, esp, hk1⟩ := hk1
    rw [h, set_irc, ready_eq hr, hk1]
    rfl
  | stopped h =>
    obtain ⟨k1, k2, k3, h1, h2, h3, hd⟩ := cleanup_cases h
    obtain ⟨⟨t, hp⟩, -, hd⟩ := Option.bind_eq_some_iff.1 hd
    cases hd
    have e1 : Moves k k1 := .drain h1
    have e2 : Moves k1 k2 := .drain h2
    rw [close_all_eq] at h3
    change k3.idle = k.idle
    rw [h3, e2, e1]
  | registered handlers allowed h => rw [h]
  | returned esp hi_sig irc h => rw [h]
  | posted k1 rc v hs h =>
    rw [h]
    change k1.idle = k.idle
    rcases signal_cases hs with rfl | ⟨q, -, rfl | ⟨-, k2, v, hr, rfl⟩⟩
    · rfl
    · rfl
    · change k2.idle = k.idle
      rw [ready_eq hr]
      rfl
  | drives dvs hr h => rw [h]

/-- No step changes who is the idle process. -/
theorem step_idle (h : step im e s = some s') : s'.kernel.idle = s.kernel.idle := by
  rcases step_cases h with ⟨g, rfl, rfl⟩ | ⟨codes, k, t, rfl, hl, rfl⟩ | ⟨k, p, r, htr, hd⟩
  · rfl
  · rw [keyboard_lower_eq hl]
  have htrap : k.idle = s.kernel.idle := by rw [trapped_eq htr]
  rw [← htrap]
  rcases dispatch_request_effect hd with ⟨-, rfl⟩ | ⟨k1, k2, heff, hm, -, -, hend⟩
  · rfl
  have h1 : k1.idle = k.idle := by
    rcases heff with ⟨-, rfl⟩ | ⟨x, -, -, heff⟩
    · rfl
    · exact heff.idle
  have h2 : k2.idle = k.idle := by
    rw [hm]
    exact h1
  rcases hend with rfl | ⟨q, rfl⟩
  · exact h2
  · rw [resume_eq]
    exact h2

/-- A step of the machine is a step of its scheduler. A process that is
preempted by the clock joins the queue. -/
theorem step_sched {s s' : Traced} (h : TracedInv s) (hok : ReadiesUnlisted s e) (ht : tracedStep im e s = some s') :
    ∃ xs, Step s.sys.kernel.idle xs (endsTurn s.sys e) (sched s.sys) (sched s'.sys) ∧
      ∀ k p, trapped s.sys e = some (k, p, some .SYS_TIMER) → p ∈ xs := by
  obtain ⟨f, hf⟩ := h.sound
  have hjoin {xs : List Idx} {k : Kernel} (hj : Joins xs s.sys.kernel k) (hn : (readyQueue k).Nodup)
      (hcur : s'.sys = ⟨k, s.sys.cur⟩) : Step s.sys.kernel.idle xs false (sched s.sys) (sched s'.sys) := by
    have e : sched s'.sys = ⟨(sched s.sys).cur, (sched s.sys).queue ++ xs⟩ := by
      rw [hcur]
      exact congrArg (Sched.mk s.sys.cur) hj
    rw [e]
    exact .join _ (hj ▸ hn)
  rcases tracedStep_cases ht with ⟨g, rfl, rfl⟩ | ⟨codes, k, t, rfl, hl, rfl⟩ | ⟨k, p, r, sys, htr, hd, rfl⟩
  · have hj : Joins [] s.sys.kernel { s.sys.kernel with mem := g s.sys.kernel.mem } := .of_links rfl
    exact ⟨[], hjoin hj (readyQueue_eq hf.queued.lists).1.nodup rfl, fun k p e => by cases e⟩
  · obtain ⟨xs, hj⟩ := Joins.keyboard_lower hf hok hl
    obtain ⟨⟨f1, h1, -⟩, -⟩ := hf.keyboard_lower hok hl
    exact ⟨xs, hjoin hj (readyQueue_eq h1.queued.lists).1.nodup rfl, fun k p e => by cases e⟩
  have hends : endsTurn s.sys e = decide (r ≠ some .TIME_INT) := by
    unfold endsTurn
    rw [htr]
  obtain ⟨hlinks, -, -, -⟩ := trapped_frame htr
  obtain ⟨⟨f1, h1⟩, hp⟩ := h.at_trap htr
  have hqueue : readyQueue k = readyQueue s.sys.kernel := by
    unfold readyQueue
    rw [hlinks]
  have hidle : k.idle = s.sys.kernel.idle := by rw [trapped_eq htr]
  rw [hends, htr]
  -- a turn, after `xs` have joined the queue
  have hturn {k1 : Kernel} {f2 : Queue → List Idx} {partner : Idx → Word} {tr : Option Idx} {xs : List Idx}
      (h2 : Sound k1 partner f2) (hj : Joins xs k k1) (hidle1 : k1.idle = k.idle)
      (hrun : ∀ q, tr = some q → k1.state q = .RUNNING) (hd : dispatch_next im k1 tr = some sys) :
      Step s.sys.kernel.idle (xs ++ tr.toList) true (sched s.sys) (sched sys) := by
    obtain ⟨hn, e⟩ := dispatch_next_sched h2 hrun hd
    rw [hj, hqueue, hidle1, hidle, List.append_assoc] at e
    rw [hj, hqueue, List.append_assoc] at hn
    rw [e]
    exact .turn (sched s.sys) hn
  by_cases hr : r = some .TIME_INT
  · subst hr
    cases hd
    refine ⟨[], ?_, fun k' p' e => by cases e⟩
    have hj : Joins [] s.sys.kernel (switch_to k p) := .of_links hlinks
    refine hjoin hj ?_ ?_
    · exact hqueue.symm ▸ (readyQueue_eq hf.queued.lists).1.nodup
    · rw [trapped_cur htr]
  rw [decide_eq_true hr]
  cases r with
  | none =>
    refine ⟨[] ++ (none : Option Idx).toList, hturn h1 (.of_links rfl) rfl (by rintro q ⟨⟩) hd, fun k' p' e => by cases e⟩
  | some x =>
    have hx : x ≠ .TIME_INT := fun e => hr (congrArg some e)
    rw [dispatch_request_eq im k p hx] at hd
    obtain ⟨⟨k1, tr⟩, hh, hd⟩ := Option.bind_eq_some_iff.1 hd
    have hok' := hok.request htr
    obtain ⟨⟨f2, h2, -⟩, hrun⟩ := h1.handled hp hok' hh
    obtain ⟨xs, hj⟩ := Joins.handle_request (h1.renamed hp (named k p x)) hp (hok'.retarget hp.1 _)
      (fun w hw => by rw [hw]; exact Function.update_self ..) hh
    refine ⟨xs ++ tr.toList, hturn h2 hj (handle_request_effect hx hh).1.idle hrun hd, ?_⟩
    intro k' p' e
    cases e
    obtain ⟨k2, -, hh⟩ := Option.bind_eq_some_iff.1 hh
    cases hh
    exact List.mem_append_right _ (List.mem_singleton_self p)

/-! ## The idle process -/

/-- After boot the idle process is ready or runs, and somebody runs. -/
theorem boot_idles {m : Mem} {root idleproc : Word} {s : Sys} (hb : boot im m root idleproc = some s) :
    ∃ i, s.kernel.idle = some i ∧ Idles i (sched s) ∧ s.cur.isSome := by
  obtain ⟨pid1, k1, pid2, k2, i, hc1, hc2, hready, hend⟩ := boot_cases hb
  obtain ⟨⟨f1, h1, -⟩, -⟩ := (Sound.init im m fun _ => 0).create hc1
  obtain ⟨⟨f2, h2, -⟩, -⟩ := h1.create hc2
  have h3 : Sound { k2 with idle := some i } (fun _ => 0) f2 := ⟨h2.queued, h2.map⟩
  have hmem : i ∈ f2 .ready := by
    obtain ⟨q, hq⟩ := h3.queued.listed i (by simp only [hready]; trivial)
    have hst := (h3.queued.fits q i hq).state_eq
    simp only [hready] at hst
    cases q with
    | ready => exact hq
    | _ => cases hst
  cases hf : f2 .ready with
  | nil =>
    rw [hf] at hmem
    cases hmem
  | cons p is =>
    obtain ⟨k4, hn, e, -, hq⟩ := h3.queued.next hf
    rw [hn] at hend
    rcases hend with ⟨hnone, -⟩ | ⟨q, hq1, rfl⟩
    · cases hnone
    cases hq1
    have hlinks : (resume im k4 p).links = k4.links := by
      rw [resume_eq]
      rfl
    have hl : Family (resume im k4 p).links (Function.update f2 .ready is) := hlinks.symm ▸ hq.lists
    refine ⟨i, ?_, ?_, rfl⟩
    · change (resume im k4 p).idle = _
      rw [resume_eq, e]
    · rw [hf] at hmem
      rcases List.mem_cons.1 hmem with rfl | hmem
      · exact .inr rfl
      · left
        change i ∈ readyQueue (resume im k4 p)
        rw [(readyQueue_eq hl).2, Function.update_self]
        exact hmem

theorem traced_step {s s' : Traced} (ht : tracedStep im e s = some s') : step im e s.sys = some s'.sys := by
  obtain ⟨sys, hs, ht⟩ := Option.bind_eq_some_iff.1 ht
  cases ht
  exact hs

/-- In every run some process is the idle process. -/
theorem idle_exists {ok : Traced → Event → Prop} {s : Traced} (hs : Reach (tracedStep im) (TracedInit im) ok s) :
    ∃ i, s.sys.kernel.idle = some i := by
  refine hs.inv (fun s => ∃ i, s.sys.kernel.idle = some i) ?_ ?_
  · rintro s ⟨m, root, idleproc, hb⟩
    obtain ⟨i, hi, -⟩ := boot_idles hb
    exact ⟨i, hi⟩
  · rintro s e s' ⟨i, hi⟩ - ht
    exact ⟨i, (step_idle (traced_step ht)).trans hi⟩

theorem traced_inv {s : Traced} (hs : Reach (tracedStep im) (TracedInit im) ReadiesUnlisted s) : TracedInv s := by
  refine hs.inv TracedInv ?_ fun _ _ _ h hok ht => h.step hok ht
  rintro s ⟨m, root, idleproc, hb⟩
  exact (TracedInv.boot hb).1

/-! ## Results -/

/-- In every run of the machine in which only processes on no list are made
ready, every step is one of a run queue with an idle task: processes join at
the end, and a turn that ends takes the first of them that is not the idle
process, or the idle process when it is alone. -/
theorem machine_runs_queue {s s' : Traced} (hs : Reach (tracedStep im) (TracedInit im) ReadiesUnlisted s)
    (hok : ReadiesUnlisted s e) (ht : tracedStep im e s = some s') : s'.sys.kernel.idle = s.sys.kernel.idle ∧
      ∃ xs, Step s.sys.kernel.idle xs (endsTurn s.sys e) (sched s.sys) (sched s'.sys) := by
  obtain ⟨xs, hstep, -⟩ := step_sched (traced_inv hs) hok ht
  exact ⟨step_idle (traced_step ht), xs, hstep⟩

/-- Process 0 yields to the idle process, which is alone in the queue then and steps back. -/
theorem machine_runs_queue_yield : ∃ s s' xs, tracedStep sampleImage (.syscall 0x10000) s = some s' ∧
    endsTurn s.sys (.syscall 0x10000) = true ∧ s'.sys.cur = some 0 ∧
      Step s.sys.kernel.idle xs (endsTurn s.sys (.syscall 0x10000)) (sched s.sys) (sched s'.sys) := by
  have h0 : Reach (tracedStep sampleImage) (TracedInit sampleImage) ReadiesUnlisted tracedBoot := .start tracedBoot_init
  obtain ⟨s, hs, ht⟩ := h0.exec_ok plainEvent (fun _ _ => plainEvent_ok) ((call 0x10000 .YIELD []).take 1)
    (fun s => plainEvent s (.syscall 0x10000) && endsTurn s.sys (.syscall 0x10000) &&
      (tracedStep sampleImage (.syscall 0x10000) s).any fun s' : Traced => decide (s'.sys.cur = some 0)) (by decide +kernel)
  simp only [Bool.and_eq_true, Option.any_eq_true, decide_eq_true_eq] at ht
  obtain ⟨⟨hok, hends⟩, s', hstep, hcur⟩ := ht
  obtain ⟨-, xs, h⟩ := machine_runs_queue hs (plainEvent_ok hok) hstep
  exact ⟨s, s', xs, hstep, hends, hcur, h⟩

/-- The machine, and how many turns have ended. -/
structure Watch where
  traced : Traced
  turns : Nat

def watchStep (im : Image) (e : Event) (s : Watch) : Option Watch := do
  let t ← tracedStep im e s.traced
  some ⟨t, s.turns + (endsTurn s.traced.sys e).toNat⟩

/-- `w` has not run, and only processes on no list are made ready. -/
def StillWaits (w : Idx) (s : Watch) (e : Event) : Prop := ReadiesUnlisted s.traced e ∧ s.traced.sys.cur ≠ some w

theorem watch_path {s : Traced} {t : Watch} (hs : TracedInv s) (ht : Reach (watchStep im) (· = ⟨s, 0⟩) (StillWaits w) t) :
    TracedInv t.traced ∧ t.traced.sys.kernel.idle = s.sys.kernel.idle ∧
      Path s.sys.kernel.idle w (sched s.sys) t.turns (sched t.traced.sys) := by
  induction ht with
  | start h =>
    subst h
    exact ⟨hs, rfl, .start⟩
  | next _ hok hstep ih =>
    obtain ⟨hinv, hidle, hpath⟩ := ih
    obtain ⟨t1, ht1, hstep⟩ := Option.bind_eq_some_iff.1 hstep
    cases hstep
    obtain ⟨xs, hsched, -⟩ := step_sched hinv hok.1 ht1
    rw [hidle] at hsched
    exact ⟨hinv.step hok.1 ht1, (step_idle (traced_step ht1)).trans hidle, hpath.next hok.2 hsched⟩

/-- A ready process other than the idle process has one process less in front of
it after every turn that does not go to it; so it runs at the latest when as
many turns have ended as there can be other processes. -/
theorem bounded_waiting {s : Traced} {t : Watch} (hs : Reach (tracedStep im) (TracedInit im) ReadiesUnlisted s)
    (hw : s.sys.kernel.state w = .READY) (hidle : s.sys.kernel.idle ≠ some w)
    (ht : Reach (watchStep im) (· = ⟨s, 0⟩) (StillWaits w) t) (hcur : t.traced.sys.cur ≠ some w) :
    w ∈ readyQueue t.traced.sys.kernel ∧
      t.turns + ahead s.sys.kernel.idle w (readyQueue t.traced.sys.kernel) =
        ahead s.sys.kernel.idle w (readyQueue s.sys.kernel) ∧
      t.turns + 2 ≤ MAX_NUM_PROCESS := by
  have hinv := traced_inv hs
  obtain ⟨f, hf⟩ := hinv.sound
  obtain ⟨hlist, hq⟩ := readyQueue_eq hf.queued.lists
  have hmem : w ∈ readyQueue s.sys.kernel := by
    obtain ⟨q, hm⟩ := hf.queued.listed w (by rw [hw]; trivial)
    have hst := (hf.queued.fits q w hm).state_eq
    rw [hw] at hst
    cases q with
    | ready => exact hq ▸ hm
    | _ => cases hst
  obtain ⟨-, -, hpath⟩ := watch_path hinv ht
  obtain ⟨hmem', hn⟩ := hpath.waits hmem hidle hcur
  refine ⟨hmem', hn, ?_⟩
  obtain ⟨i, hi⟩ := idle_exists hs
  have hiw : i ≠ w := by
    rintro rfl
    exact hidle hi
  have hle := ahead_le hlist.nodup hi hiw
  rw [Fintype.card_fin] at hle
  change t.turns + ahead s.sys.kernel.idle w (readyQueue t.traced.sys.kernel) =
    ahead s.sys.kernel.idle w (readyQueue s.sys.kernel) at hn
  omega

/-- Process 2 is second in line, behind process 3; process 0 gives up its turn, and process 3 runs. -/
theorem bounded_waiting_second : ∃ s t, Reach (watchStep sampleImage) (· = ⟨s, 0⟩) (StillWaits 2) t ∧
    (t.turns = 1 ∧ t.traced.sys.cur = some 3) ∧ 2 ∈ readyQueue t.traced.sys.kernel ∧
      1 + ahead s.sys.kernel.idle 2 (readyQueue t.traced.sys.kernel) =
        ahead s.sys.kernel.idle 2 (readyQueue s.sys.kernel) := by
  have h0 : Reach (tracedStep sampleImage) (TracedInit sampleImage) ReadiesUnlisted tracedBoot := .start tracedBoot_init
  obtain ⟨s, hs, ht⟩ := h0.exec_ok plainEvent (fun _ _ => plainEvent_ok)
    (call 0x10000 .CREATE [0x7000, 0x1000] ++ call 0x11000 .CREATE [0x7000, 0x1000])
    (fun s => decide (s.sys.kernel.state 2 = .READY ∧ s.sys.kernel.idle ≠ some 2) &&
      (exec (watchStep sampleImage) (fun t e => plainEvent t.traced e && decide (t.traced.sys.cur ≠ some 2))
        (call 0x10000 .YIELD []) ⟨s, 0⟩).any fun t : Watch => decide (t.turns = 1 ∧ t.traced.sys.cur = some 3))
    (by decide +kernel)
  simp only [Bool.and_eq_true, decide_eq_true_eq] at ht
  obtain ⟨⟨hw, hidle⟩, ht⟩ := ht
  have hstart : Reach (watchStep sampleImage) (· = ⟨s, 0⟩) (StillWaits 2) ⟨s, 0⟩ := .start rfl
  have htest : ∀ (t : Watch) (e : Event), (plainEvent t.traced e && decide (t.traced.sys.cur ≠ some 2)) = true →
      StillWaits 2 t e := by
    intro t e h
    rw [Bool.and_eq_true] at h
    exact ⟨plainEvent_ok h.1, of_decide_eq_true h.2⟩
  obtain ⟨t, hreach, ht⟩ := hstart.exec_ok _ htest _ _ ht
  obtain ⟨hturns, hcur⟩ := of_decide_eq_true ht
  obtain ⟨hmem, hn, -⟩ := bounded_waiting hs hw hidle hreach (by rw [hcur]; decide)
  rw [hturns] at hn
  exact ⟨s, t, hreach, ⟨hturns, hcur⟩, hmem, hn⟩

/-- The idle process makes no requests, as `idleproc` does, and only processes on no list are made ready. -/
def IdleSpins (s : Traced) (e : Event) : Prop :=
  ReadiesUnlisted s e ∧
    ∀ k p r, trapped s.sys e = some (k, p, r) → s.sys.kernel.idle = some p → r = some .SYS_TIMER

/-- In every run in which the idle process makes no requests, it is ready or
runs, and the dispatcher always has a process to run. -/
theorem dispatcher_busy {s : Traced} (hs : Reach (tracedStep im) (TracedInit im) IdleSpins s) :
    s.sys.cur.isSome ∧ ∀ i, s.sys.kernel.idle = some i → s.sys.cur = some i ∨ i ∈ readyQueue s.sys.kernel := by
  have h : TracedInv s ∧ s.sys.cur.isSome ∧ ∃ i, s.sys.kernel.idle = some i ∧ Idles i (sched s.sys) := by
    refine hs.inv
      (fun s => TracedInv s ∧ s.sys.cur.isSome ∧ ∃ i, s.sys.kernel.idle = some i ∧ Idles i (sched s.sys)) ?_ ?_
    · rintro s ⟨m, root, idleproc, hb⟩
      obtain ⟨i, hi, hidles, hcur⟩ := boot_idles hb
      exact ⟨(TracedInv.boot hb).1, hcur, i, hi, hidles⟩
    · rintro s e s' ⟨hinv, hcur, i, hi, hidles⟩ ⟨hok, hspins⟩ ht
      obtain ⟨xs, hstep, hback⟩ := step_sched hinv hok ht
      have hreturns : endsTurn s.sys e = true → s.sys.cur = some i → i ∈ xs := by
        intro hends hci
        unfold endsTurn at hends
        split at hends
        · next k p r htr =>
          obtain rfl : p = i := Option.some.inj ((trapped_cur htr).symm.trans hci)
          obtain rfl := hspins k p r htr hi
          exact hback k p htr
        · cases hends
      obtain ⟨hidles', hbusy⟩ := hstep.idles hidles hreturns
      refine ⟨hinv.step hok ht, ?_, i, (step_idle (traced_step ht)).trans hi, hidles'⟩
      cases hends : endsTurn s.sys e with
      | true => exact hbusy hends
      | false =>
        rw [hends] at hstep
        have hsame : s'.sys.cur = s.sys.cur := hstep.cur_eq
        rw [hsame]
        exact hcur
  obtain ⟨-, hcur, i, hi, hidles⟩ := h
  refine ⟨hcur, fun j hj => ?_⟩
  exact (Option.some.inj (hi.symm.trans hj) ▸ hidles).symm

/-- An event of a process other than the idle process, or the clock. -/
def spinsEvent (s : Traced) (e : Event) : Bool :=
  plainEvent s e &&
    match e with
    | .syscall _ => decide (s.sys.kernel.idle ≠ s.sys.cur)
    | _ => true

theorem spinsEvent_ok {s : Traced} {e : Event} (h : spinsEvent s e = true) : IdleSpins s e := by
  unfold spinsEvent at h
  rw [Bool.and_eq_true] at h
  refine ⟨plainEvent_ok h.1, fun k p r htr hidle => ?_⟩
  cases e with
  | user g => cases htr
  | keyboard codes => cases htr
  | syscall esp =>
    have hne := of_decide_eq_true h.2
    rw [trapped_cur htr] at hne
    exact absurd hidle hne
  | timer esp eax =>
    obtain ⟨q, -, e⟩ := Option.bind_eq_some_iff.1 htr
    cases e
    rfl

/-- Process 0 waits for a signal, and the idle process runs turn after turn. -/
theorem dispatcher_busy_asleep : ∃ s, Reach (tracedStep sampleImage) (TracedInit sampleImage) IdleSpins s ∧
    (s.sys.cur = some 1 ∧ s.sys.kernel.state 0 = .WAITING) ∧
      (s.sys.cur.isSome ∧ ∀ i, s.sys.kernel.idle = some i → s.sys.cur = some i ∨ i ∈ readyQueue s.sys.kernel) := by
  have h0 : Reach (tracedStep sampleImage) (TracedInit sampleImage) IdleSpins tracedBoot := .start tracedBoot_init
  obtain ⟨s, hs, ht⟩ := h0.exec_ok spinsEvent (fun _ _ => spinsEvent_ok)
    (call 0x10000 .SIGWAIT [] ++ [.timer 0x11000 0, .timer 0x11000 0])
    (fun s => decide (s.sys.cur = some 1 ∧ s.sys.kernel.state 0 = .WAITING)) (by decide +kernel)
  exact ⟨s, hs, of_decide_eq_true ht, dispatcher_busy hs⟩

end Xeros
