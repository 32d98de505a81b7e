import Xeros.Msg.Transfer
import Xeros.PidMap.Table
import Xeros.Procs.Cleanup
import Xeros.Procs.Machine
/-!
# No rendezvous is missed

The machine under `CREATE`, `YIELD`, `STOP`, `SLEEP`, `SEND` and `RECV`
requests and timer ticks, in any order. A lookup in the pid map is taken as
right: before any step the map may be replaced by one that agrees with the
table. Nobody writes the from-pid cell of a process that is blocked in `recv`.
Then no process is blocked sending to another one that is blocked receiving
from it or from any, and a partner that is there already is met, exactly when
the copy of the message comes back (`rendezvous_kept`).

A negative length is a count of some 4 GiB for `_bcopy`: the copy runs over the
end of memory, and nobody is readied any more (`rendezvous_faults`).
-/

namespace Xeros

open Links Kernel Runs

/-! ## The machine -/

inductive MsgEvent where
  | machine (e : Event)
  /-- Another map takes the place of the pid map. -/
  | remap (t : TreeNode)

/-- `_bcopy` comes back: what is copied lies in memory, on both sides. -/
def CopyReturns (k : Kernel) (s r : Idx) : Prop :=
  copyLen k s r = 0 ∨ (k.arg s 1).toNat + (copyLen k s r).toNat ≤ FREEMEM_END.toNat ∧
    (k.arg r 1).toNat + (copyLen k s r).toNat ≤ FREEMEM_END.toNat

instance (k : Kernel) (s r : Idx) : Decidable (CopyReturns k s r) := inferInstanceAs (Decidable (_ ∨ _))

/-- The process that was blocked in state `st` and has been readied. -/
def readied (k k' : Kernel) (st : PState) : Option Idx :=
  (List.finRange MAX_NUM_PROCESS).find? fun i => k.state i = st ∧ k'.state i = .READY

/-- A request of `p` up to its end, if it is a `SEND` or a `RECV`: it never ends
when the copy of the message does not come back. -/
def talk (k : Kernel) (p : Idx) : Request → Option Kernel
  | .SEND => do
    let k' ← send k p (k.arg p 0)
    if (readied k k' .RECEIVING).all fun d => decide (CopyReturns k p d) then some k' else none
  | .RECV => do
    let k' ← receive k p (k.arg p 0)
    if (readied k k' .SENDING).all fun i => decide (CopyReturns k i p) then some k' else none
  | _ => some k

/-- The machine; a copy that does not come back ends the run. -/
def msgStep (im : Image) (e : MsgEvent) (s : Traced) : Option Traced :=
  match e with
  | .machine e =>
    match trapped s.sys e with
    | some (k, p, some r) => (talk k p r).bind fun _ => tracedStep im e s
    | _ => tracedStep im e s
  | .remap t => some { s with sys := { s.sys with kernel := { s.sys.kernel with pidMap := t } } }

/-- The requests of this module. -/
def Talks (r : Request) : Prop := r ∈ [Request.CREATE, .YIELD, .STOP, .SLEEP, .SEND, .RECV]

instance : DecidablePred Talks := fun r => inferInstanceAs (Decidable (r ∈ _))

/-- No keyboard interrupt, and no other request. -/
def TalksOnly (s : Sys) (e : Event) : Prop :=
  match e with
  | .user _ | .timer .. => True
  | .keyboard _ => False
  | .syscall _ => ∃ k p r, trapped s e = some (k, p, some r) ∧ Talks r

/-- The map finds every process in use. -/
def ExactMap (k : Kernel) : Prop := ∀ i, k.state i ≠ .STOPPED → pidMapLookup k (k.pid i) = some (pcbIndex i)

instance : DecidablePred ExactMap := fun _ => inferInstanceAs (Decidable (∀ _, _))

/-- The from-pid cell of a process that is blocked in `recv` reads what it read when the process blocked. -/
def CellsPrivate (k : Kernel) (partner : Idx → Word) : Prop :=
  ∀ d, k.state d = .RECEIVING → from_cell k d = partner d

instance (k : Kernel) (partner : Idx → Word) : Decidable (CellsPrivate k partner) := inferInstanceAs (Decidable (∀ _, _))

def MessagesOnly (im : Image) (s : Traced) : MsgEvent → Prop
  | .machine e => ExactMap s.sys.kernel ∧ TalksOnly s.sys e ∧
      ∀ s', tracedStep im e s = some s' → CellsPrivate s'.sys.kernel s'.partner
  | .remap t => Agree t s.sys.kernel.pid s.sys.kernel.state

/-- `i` is blocked sending to `d`. -/
def SendsTo (k : Kernel) (partner : Idx → Word) (i d : Idx) : Prop := k.state i = .SENDING ∧ partner i = k.pid d

/-- `d` is blocked receiving from `i` or from any. -/
def ReceivesFrom (k : Kernel) (partner : Idx → Word) (d i : Idx) : Prop :=
  k.state d = .RECEIVING ∧ (partner d = 0 ∨ partner d = k.pid i)

def NoneMissed (k : Kernel) (partner : Idx → Word) : Prop :=
  ∀ i d, SendsTo k partner i d → ¬ReceivesFrom k partner d i

variable {im : Image} {k k' : Kernel} {partner : Idx → Word} {f : Queue → List Idx} {p i d : Idx}

theorem msgStep_machine {e : Event} {s s' : Traced} (h : msgStep im (.machine e) s = some s') :
    tracedStep im e s = some s' := by
  unfold msgStep at h
  simp only [] at h
  split at h
  · obtain ⟨-, -, h⟩ := Option.bind_eq_some_iff.1 h
    exact h
  · exact h

/-! ## Who waits for whom -/

theorem ExactMap.distinct (h : ExactMap k) {i j : Idx} (hi : k.state i ≠ .STOPPED) (hj : k.state j ≠ .STOPPED)
    (e : k.pid i = k.pid j) : i = j := by
  have hl := h i hi
  rw [e, h j hj, Option.some.injEq] at hl
  exact (pcbIndex_inj hl).symm

/-- Who is blocked sending to `p` is on its list of senders. -/
theorem Sound.sender_mem (h : Sound k partner f) (hx : ExactMap k) (hp : k.state p ≠ .STOPPED)
    (hs : SendsTo k partner i p) : i ∈ f (.senders p) := by
  obtain ⟨hst, hpid⟩ := hs
  obtain ⟨q, hq⟩ := h.queued.listed i (by rw [hst]; trivial)
  have hfit := h.queued.fits q i hq
  have hqs := hfit.state_eq.trans hst
  cases q with
  | senders e =>
    obtain ⟨-, he, hpe⟩ := hfit
    obtain rfl := hx.distinct hp he (hpid.symm.trans hpe)
    exact hq
  | _ => cases hqs

/-- Who is blocked receiving from `p` alone is on its list of receivers. -/
theorem Sound.receiver_mem (h : Sound k partner f) (hx : ExactMap k) (hp : k.state p ≠ .STOPPED)
    (hd : k.state d = .RECEIVING) (hpid : partner d = k.pid p) : d ∈ f (.receivers p) := by
  have h0 : partner d ≠ 0 := by
    rw [hpid]
    exact h.map.nonzero p hp
  obtain ⟨q, hq⟩ := h.queued.listed d (by rw [hd]; exact h0)
  have hfit := h.queued.fits q d hq
  have hqs := hfit.state_eq.trans hd
  cases q with
  | receivers e =>
    obtain ⟨-, -, he, hpe⟩ := hfit
    obtain rfl := hx.distinct hp he (hpid.symm.trans hpe)
    exact hq
  | _ => cases hqs

/-! ## What keeps a rendezvous from being missed -/

namespace NoneMissed

theorem of_unblocked (h : ∀ i, ¬Blocked (k.state i)) : NoneMissed k partner :=
  fun i _ hs _ => h i (.inl hs.1)

theorem noneBlocks (h : NoneMissed k partner) (hb : NoneBlocks k k') : NoneMissed k' partner := by
  rintro i d ⟨hi, hpi⟩ ⟨hd, hpd⟩
  obtain ⟨hsi, hpidi⟩ := hb i (.inl hi)
  obtain ⟨hsd, hpidd⟩ := hb d (.inr hd)
  refine h i d ⟨hsi ▸ hi, hpi.trans hpidd⟩ ⟨hsd ▸ hd, ?_⟩
  rwa [← hpidi]

theorem retarget (h : NoneMissed k partner) (hp : k.state p = .RUNNING) (w : Option Word) :
    NoneMissed k (Xeros.retarget partner p w) := by
  cases w with
  | none => exact h
  | some w =>
    have hne {j : Idx} {st : PState} (hst : st ≠ .RUNNING) (hj : k.state j = st) :
        Xeros.retarget partner p (some w) j = partner j := by
      exact Function.update_of_ne (ne_of_apply_ne k.state (by rw [hj, hp]; exact hst)) ..
    rintro i d ⟨hi, hpi⟩ ⟨hd, hpd⟩
    rw [hne (by simp) hi] at hpi
    rw [hne (by simp) hd] at hpd
    exact h i d ⟨hi, hpi⟩ ⟨hd, hpd⟩

end NoneMissed

/-! ## Requests -/

theorem Met.noneBlocks (h : Met k k' partner f p d) : NoneBlocks k k' := by
  intro i hi
  rw [h.state] at hi ⊢
  have hready : ¬Blocked .READY := by simp [Blocked]
  have hid : i ≠ d := by
    rintro rfl
    rw [Function.update_self] at hi
    exact hready hi
  rw [Function.update_of_ne hid] at hi
  have hip : i ≠ p := by
    rintro rfl
    rw [Function.update_self] at hi
    exact hready hi
  exact ⟨by rw [Function.update_of_ne hid, Function.update_of_ne hip], congrFun h.pid i⟩

theorem Refused.noneBlocks (h : Refused k k' partner p) : NoneBlocks k k' := by
  refine .update p .READY (by simp [Blocked]) h.state fun i _ => ?_
  rw [h.pid]

/-- A caller that blocks misses nobody: only its own rendezvous are new. -/
theorem NoneMissed.waits {st : PState} (h : NoneMissed k partner) (hw : Waits k k' partner p st)
    (hsend : st = .SENDING → ∀ d, d ≠ p → partner p = k.pid d → ¬ReceivesFrom k partner d p)
    (hrecv : st = .RECEIVING → ∀ i, i ≠ p → SendsTo k partner i p → partner p ≠ 0 ∧ partner p ≠ k.pid i) :
    NoneMissed k' partner := by
  rintro i d ⟨hi, hpi⟩ ⟨hd, hpd⟩
  rw [hw.state] at hi hd
  rw [hw.pid] at hpi hpd
  by_cases hip : i = p
  · subst hip
    rw [Function.update_self] at hi
    have hdi : d ≠ i := by
      rintro rfl
      rw [Function.update_self, hi] at hd
      cases hd
    rw [Function.update_of_ne hdi] at hd
    exact hsend hi d hdi hpi ⟨hd, hpd⟩
  · rw [Function.update_of_ne hip] at hi
    by_cases hdp : d = p
    · subst hdp
      rw [Function.update_self] at hd
      obtain ⟨h0, hne⟩ := hrecv hd i hip ⟨hi, hpi⟩
      exact hpd.elim h0 hne
    · rw [Function.update_of_ne hdp] at hd
      exact h i d ⟨hi, hpi⟩ ⟨hd, hpd⟩

section
variable (h : Sound k partner f) (hp : Runs k p) (hx : ExactMap k) (hm : NoneMissed k partner)
include h hp hx hm

theorem Sound.send_missed {dest : Word} (hcells : CellsPrivate k partner) (hdest : partner p = dest)
    (hs : send k p dest = some k') : NoneMissed k' partner := by
  obtain ⟨k1, hs1, hcases⟩ := send_cases h hp hdest fun d _ hd h0 _ => (hcells d hd).symm.trans h0
  obtain rfl := Option.some.inj (hs1.symm.trans hs)
  rcases hcases with ⟨-, hr, -⟩ | ⟨d, -, -, -, hmet, -⟩ | ⟨d, hl, hpd, hnone, hany, hw, -⟩
  · exact hm.noneBlocks hr.noneBlocks
  · exact hm.noneBlocks hmet.noneBlocks
  · refine hm.waits hw (fun _ d' _ hpd' hrecv => ?_) (by rintro ⟨⟩)
    -- the destination is blocked neither on the caller nor on any
    have hlive : k.state d' ≠ .STOPPED := by
      rw [hrecv.1]
      simp
    have hl' := hx d' hlive
    rw [← hpd', hdest, hl, Option.some.injEq] at hl'
    obtain rfl := pcbIndex_inj hl'
    rcases hrecv.2 with h0 | hpid
    · exact hany ⟨hrecv.1, (hcells d hrecv.1).trans h0⟩
    · exact hnone d (h.receiver_mem hx (live_of_runs hp) hrecv.1 hpid) hpd

theorem Sound.receive_missed {a : Word} (hsrc : partner p = k.mem.load32 a) (hr : receive k p a = some k') :
    NoneMissed k' partner := by
  obtain ⟨k1, hr1, hcases⟩ := receive_cases h hp hsrc
  obtain rfl := Option.some.inj (hr1.symm.trans hr)
  rcases hcases with ⟨-, hr, -⟩ | ⟨d, -, -, -, hmet, -⟩ | ⟨hany, hnone, hw, -⟩
  · exact hm.noneBlocks hr.noneBlocks
  · exact hm.noneBlocks hmet.noneBlocks
  · refine hm.waits hw (by rintro ⟨⟩) fun _ i _ hs => ?_
    -- every sender to the caller is on its list
    have hi := h.sender_mem hx (live_of_runs hp) hs
    constructor
    · intro h0
      rw [hany h0] at hi
      cases hi
    · exact fun e => hnone i hi e.symm

end

theorem Sound.cleanup_noneBlocks (h : Sound k partner f) (hp : k.state p = .RUNNING)
    (hc : Xeros.cleanup keyboards k p = some k') : NoneBlocks k k' := by
  obtain ⟨f', -, -, hstopped, hpid, hfreed, hothers⟩ := h.cleanup hp hc
  intro i hi
  have hip : i ≠ p := by
    rintro rfl
    rw [hstopped] at hi
    simp [Blocked] at hi
  have hnot : i ∉ f (.senders p) ++ f (.receivers p) := by
    intro hm
    rw [(hfreed i hm).1] at hi
    simp [Blocked] at hi
  exact ⟨hothers i hnot hip, congrFun hpid i⟩

/-- One request, or a tick. -/
theorem Sound.talk_missed {r : Request} {tr : Option Idx} (h : Sound k partner f) (hp : Runs k p) (hx : ExactMap k)
    (hm : NoneMissed k partner) (hcells : CellsPrivate k partner) (hnamed : ∀ w, named k p r = some w → partner p = w)
    (hr : Talks r ∨ r = .SYS_TIMER) (hh : Xeros.handle_request im k p r = some (k', tr)) : NoneMissed k' partner := by
  cases r with
  | CREATE =>
    obtain ⟨⟨pid, k1⟩, hc, hh⟩ := Option.bind_eq_some_iff.1 hh
    obtain ⟨-, hb, -⟩ := h.create hc
    cases hh
    exact hm.noneBlocks hb
  | YIELD =>
    cases hh
    exact hm
  | STOP =>
    obtain ⟨k1, hc, hh⟩ := Option.bind_eq_some_iff.1 hh
    cases hh
    exact hm.noneBlocks (h.cleanup_noneBlocks hp.1 hc)
  | SEND =>
    obtain ⟨k1, hs, hh⟩ := Option.bind_eq_some_iff.1 hh
    cases hh
    exact h.send_missed hp hx hm hcells (hnamed _ rfl) hs
  | RECV =>
    obtain ⟨k1, hs, hh⟩ := Option.bind_eq_some_iff.1 hh
    cases hh
    exact h.receive_missed hp hx hm (hnamed _ rfl) hs
  | SYS_TIMER =>
    obtain ⟨k1, ht, hh⟩ := Option.bind_eq_some_iff.1 hh
    cases hh
    exact hm.noneBlocks (h.tick ht).2.1
  | SLEEP =>
    obtain ⟨k1, hs, hh⟩ := Option.bind_eq_some_iff.1 hh
    cases hh
    exact hm.noneBlocks (h.sleep hp.1 hs).2
  | TIME_INT => simp [Talks] at hr
  | GET_PID => simp [Talks] at hr
  | GET_P_PID => simp [Talks] at hr
  | PUTS => simp [Talks] at hr
  | SIGHANDLER => simp [Talks] at hr
  | SIGRETURN => simp [Talks] at hr
  | KILL => simp [Talks] at hr
  | SIGWAIT => simp [Talks] at hr
  | OPEN => simp [Talks] at hr
  | CLOSE => simp [Talks] at hr
  | WRITE => simp [Talks] at hr
  | READ => simp [Talks] at hr
  | IO_CTL => simp [Talks] at hr

/-! ## The invariant -/

structure MsgInv (s : Traced) : Prop where
  traced : TracedInv s
  missed : NoneMissed s.sys.kernel s.partner
  cells : CellsPrivate s.sys.kernel s.partner

/-- The from-pid cells of those that are blocked do not depend on the caller. -/
theorem CellsPrivate.retarget (h : CellsPrivate k partner) (hp : k.state p = .RUNNING) (w : Option Word) :
    CellsPrivate k (Xeros.retarget partner p w) := by
  intro d hd
  have hdp : d ≠ p := ne_of_apply_ne k.state (by simp [hd, hp])
  rw [h d hd]
  cases w with
  | none => rfl
  | some w => exact (Function.update_of_ne hdp ..).symm

theorem RequestOk.of_talks {r : Request} (hcells : CellsPrivate k partner) (hr : Talks r ∨ r = .SYS_TIMER) :
    RequestOk k partner p r := by
  cases r with
  | SEND => exact fun d _ hd h0 hne => absurd ((hcells d hd).symm.trans h0) hne
  | KILL => simp [Talks] at hr
  | _ => trivial

/-- One turn of the dispatcher. -/
theorem Sound.dispatch_missed {r : Request} {s : Sys} (h : Sound k partner f) (hp : Runs k p) (hx : ExactMap k)
    (hm : NoneMissed k partner) (hcells : CellsPrivate k partner) (hr : Talks r ∨ r = .SYS_TIMER)
    (hd : Xeros.dispatch_request im k p (some r) = some s) : NoneMissed s.kernel (retarget partner p (named k p r)) := by
  set partner' := retarget partner p (named k p r) with hpartner
  have h' : Sound k partner' f := h.renamed hp _
  have hnamed : ∀ w, named k p r = some w → partner' p = w := by
    intro w hw
    rw [hpartner, hw]
    exact Function.update_self ..
  have hcells' : CellsPrivate k partner' := hcells.retarget hp.1 _
  have hm' : NoneMissed k partner' := hm.retarget hp.1 _
  have hne : r ≠ .TIME_INT := by
    rintro rfl
    simp [Talks] at hr
  rw [dispatch_request_eq im k p hne] at hd
  obtain ⟨⟨k1, tr⟩, hh, hd⟩ := Option.bind_eq_some_iff.1 hd
  obtain ⟨⟨f1, h1, -⟩, htr⟩ := h'.handle_request hp (.of_talks hcells' hr) hnamed hh
  obtain ⟨-, -, hb⟩ := h1.dispatch_next htr hd
  exact (h'.talk_missed hp hx hm' hcells' hnamed hr hh).noneBlocks hb

theorem Agree.mapSound {t : TreeNode} {pid : Idx → Word} {state : Idx → PState} (h : Agree t pid state) :
    MapSound t pid state := ⟨h.ordered, fun q v => (h.entries q v).1, h.nonzero⟩

/-- The trap of the caller changes no cell of another process. -/
theorem CellsPrivate.syscall (h : CellsPrivate k partner) (hp : k.state p = .RUNNING) (esp : Word) :
    CellsPrivate (syscall_entry k p esp).1 partner := by
  intro d hd
  have hd' : k.state d = .RECEIVING := hd
  have hdp : d ≠ p := ne_of_apply_ne k.state (by simp [hd', hp])
  rw [← h d hd']
  unfold from_cell arg
  rw [show (syscall_entry k p esp).1.iargs d = k.iargs d from Function.update_of_ne hdp ..]
  rfl

theorem TalksOnly.request {s : Sys} {e : Event} {r : Option Request} (h : TalksOnly s e)
    (ht : trapped s e = some (k, p, r)) : ∃ x, r = some x ∧ (Talks x ∨ x = .SYS_TIMER) := by
  cases e with
  | user g => cases ht
  | keyboard codes => cases ht
  | syscall esp =>
    obtain ⟨k', p', x, htr, hx⟩ := h
    rw [ht, Option.some.injEq] at htr
    cases htr
    exact ⟨x, rfl, .inl hx⟩
  | timer esp eax =>
    obtain ⟨q, -, e⟩ := Option.bind_eq_some_iff.1 ht
    cases e
    exact ⟨_, rfl, .inr rfl⟩

namespace MsgInv
variable {s s' : Traced} {e : Event} {r : Option Request}

/-- The trap itself changes nothing that the invariant is about. -/
theorem at_trap (h : MsgInv s) (ht : trapped s.sys e = some (k, p, r)) :
    (∃ f, Sound k s.partner f) ∧ Runs k p ∧ (ExactMap s.sys.kernel → ExactMap k) ∧ NoneMissed k s.partner ∧
      CellsPrivate k s.partner := by
  obtain ⟨hf, hp⟩ := h.traced.at_trap ht
  cases e with
  | user g => cases ht
  | keyboard codes => cases ht
  | syscall esp =>
    obtain ⟨q, hq, e⟩ := Option.bind_eq_some_iff.1 ht
    cases e
    exact ⟨hf, hp, id, h.missed, h.cells.syscall (h.traced.runs p hq).1 esp⟩
  | timer esp eax =>
    obtain ⟨q, -, e⟩ := Option.bind_eq_some_iff.1 ht
    cases e
    exact ⟨hf, hp, id, h.missed, h.cells⟩

theorem readiesUnlisted (h : MsgInv s) (hto : TalksOnly s.sys e) : ReadiesUnlisted s e := by
  have hrequest : ∀ k p r, trapped s.sys e = some (k, p, some r) → RequestOk k s.partner p r := by
    intro k p r ht
    obtain ⟨-, -, -, -, hcells⟩ := h.at_trap ht
    obtain ⟨x, hx, hr⟩ := hto.request ht
    cases hx
    exact .of_talks hcells hr
  unfold ReadiesUnlisted
  cases e with
  | keyboard codes => exact hto.elim
  | _ =>
    simp only []
    split
    · next k p r ht => exact hrequest k p r ht
    · trivial

theorem step_missed (h : MsgInv s) (hx : ExactMap s.sys.kernel) (hto : TalksOnly s.sys e)
    (ht : tracedStep im e s = some s') : NoneMissed s'.sys.kernel s'.partner := by
  rcases tracedStep_cases ht with ⟨g, rfl, rfl⟩ | ⟨codes, k, t, rfl, hl, rfl⟩ | ⟨k, p, r, sys, htr, hd, rfl⟩
  · exact h.missed
  · exact hto.elim
  · obtain ⟨⟨f, hf⟩, hp, hexact, hm, hcells⟩ := h.at_trap htr
    obtain ⟨x, rfl, hr⟩ := hto.request htr
    exact hf.dispatch_missed hp (hexact hx) hm hcells hr hd

theorem step {e : MsgEvent} (h : MsgInv s) (hok : MessagesOnly im s e) (ht : msgStep im e s = some s') : MsgInv s' := by
  cases e with
  | machine e =>
    obtain ⟨hx, hto, hcells⟩ := hok
    have ht' := msgStep_machine ht
    exact ⟨h.traced.step (h.readiesUnlisted hto) ht', h.step_missed hx hto ht', hcells s' ht'⟩
  | remap t =>
    cases ht
    obtain ⟨f, hf⟩ := h.traced.sound
    have hok' : Agree t s.sys.kernel.pid s.sys.kernel.state := hok
    exact ⟨⟨⟨f, hf.queued, hok'.mapSound⟩, h.traced.runs⟩, h.missed, h.cells⟩

end MsgInv

/-! ## Meetings -/

/-- The caller `p` has met `d`: both are ready and on no other list, and the message has gone over. -/
structure Meeting (k k' : Kernel) (p d sender receiver : Idx) : Prop where
  caller : k'.state p = .READY
  other : k'.state d = .READY
  queues : ∃ f f', Family k.links f ∧ Family k'.links f' ∧ f' .ready = f .ready ++ [p, d] ∧
    OnlyOn f' .ready p ∧ OnlyOn f' .ready d
  exchanged : Exchanged k k' sender receiver

theorem Sound.only_ready (h : Sound k partner f) (hi : k.state i = .READY) : OnlyOn f .ready i := by
  have hplaced := h.placed i
  unfold Placed at hplaced
  rw [hi] at hplaced
  exact hplaced

theorem Met.meeting {s r : Idx} (h : Met k k' partner f p d) (hl : Family k.links f) (hpd : p ≠ d)
    (hex : Exchanged k k' s r) : Meeting k k' p d s r := by
  obtain ⟨f', h', hready⟩ := h.sound
  have hp : k'.state p = .READY := by rw [h.state, Function.update_of_ne hpd, Function.update_self]
  have hd : k'.state d = .READY := by rw [h.state, Function.update_self]
  exact ⟨hp, hd, ⟨f, f', hl, h'.queued.lists, hready, h'.only_ready hp, h'.only_ready hd⟩, hex⟩

/-- Who met the caller is the one that has been readied. -/
theorem Met.readied {st : PState} (h : Met k k' partner f p d) (hp : k.state p = .RUNNING) (hd : k.state d = st)
    (hb : Blocked st) : readied k k' st = some d := by
  have hst : st ≠ .READY ∧ st ≠ .RUNNING := by
    rcases hb with rfl | rfl
    · exact ⟨by decide, by decide⟩
    · exact ⟨by decide, by decide⟩
  have hiff : ∀ i, (k.state i = st ∧ k'.state i = .READY) ↔ i = d := by
    intro i
    rw [h.state]
    constructor
    · rintro ⟨hi, hready⟩
      by_contra hid
      have hip : i ≠ p := ne_of_apply_ne k.state (by rw [hi, hp]; exact hst.2)
      rw [Function.update_of_ne hid, Function.update_of_ne hip, hi] at hready
      exact hst.1 hready
    · rintro rfl
      exact ⟨hd, Function.update_self ..⟩
  unfold Xeros.readied
  simp only [hiff]
  have hfound : ((List.finRange MAX_NUM_PROCESS).find? fun i => decide (i = d)).isSome := by
    rw [List.find?_isSome]
    exact ⟨d, List.mem_finRange d, decide_eq_true rfl⟩
  obtain ⟨i, hi⟩ := Option.isSome_iff_exists.1 hfound
  have e : i = d := by simpa using List.find?_some hi
  rw [hi, e]

section
variable (h : Sound k partner f) (hp : Runs k p) (hx : ExactMap k)
include h hp hx

/-- A `send` to a process that waits for it meets this process. -/
theorem Sound.send_meets {dest : Word} (hcells : CellsPrivate k partner) (hdest : partner p = dest) (hd : k.pid d = dest)
    (hrecv : ReceivesFrom k partner d p) :
    ∃ k', send k p dest = some k' ∧ readied k k' .RECEIVING = some d ∧ Meeting k k' p d p d := by
  have hlive : k.state d ≠ .STOPPED := by
    rw [hrecv.1]
    simp
  have hpd : p ≠ d := ne_of_apply_ne k.state (by simp [hp.1, hrecv.1])
  have hplive := live_of_runs hp
  have hl := hx d hlive
  rw [hd] at hl
  obtain ⟨k', hs, hcases⟩ := send_cases h hp hdest fun d _ hd h0 _ => (hcells d hd).symm.trans h0
  refine ⟨k', hs, ?_⟩
  rcases hcases with ⟨hself | hnone, -⟩ | ⟨e, he, hpe, -, hmet, hex, -⟩ | ⟨e, hle, -, hnone, hany, -⟩
  · exact absurd (hx.distinct hplive hlive (hself.trans hd.symm)) hpd
  · rw [hl] at hnone
    cases hnone
  · have helive : k.state e ≠ .STOPPED := by
      rw [he]
      simp
    obtain rfl := hx.distinct helive hlive (hpe.trans hd.symm)
    exact ⟨hmet.readied hp.1 he (.inr rfl), hmet.meeting h.queued.lists hpd hex⟩
  · rw [hl, Option.some.injEq] at hle
    obtain rfl := pcbIndex_inj hle
    rcases hrecv.2 with h0 | hpid
    · exact absurd ⟨hrecv.1, (hcells d hrecv.1).trans h0⟩ hany
    · exact absurd hd (hnone d (h.receiver_mem hx hplive hrecv.1 hpid))

/-- A `recv` for which a sender waits meets one. -/
theorem Sound.receive_meets {a : Word} (hsrc : partner p = k.mem.load32 a) (hs : SendsTo k partner i p)
    (hi : partner p = 0 ∨ partner p = k.pid i) : ∃ k' j, receive k p a = some k' ∧ SendsTo k partner j p ∧
      (partner p = 0 ∧ k.senders p = some j ∨ partner p = k.pid j) ∧ readied k k' .SENDING = some j ∧
      Meeting k k' p j j p := by
  have hplive := live_of_runs hp
  have hilive : k.state i ≠ .STOPPED := by
    rw [hs.1]
    simp
  have hmem := h.sender_mem hx hplive hs
  obtain ⟨k', hr, hcases⟩ := receive_cases h hp hsrc
  rcases hcases with ⟨hself | ⟨h0, hnone⟩, -⟩ | ⟨j, hj, hpj, hfirst, hmet, hex, -⟩ | ⟨hany, hnone, -⟩
  · rcases hi with h0 | hpi
    · exact absurd (hself.trans h0) (h.map.nonzero p hplive)
    · obtain rfl := hx.distinct hplive hilive (hself.trans hpi)
      exact absurd (hp.1.symm.trans hs.1) (by simp)
  · rw [hi.resolve_left h0, hx i hilive] at hnone
    cases hnone
  · obtain ⟨hsend, -, hpart⟩ := h.queued.fits _ j hj
    have hpj' : p ≠ j := ne_of_apply_ne k.state (by simp [hp.1, hsend])
    have hhead : k.senders p = (f (.senders p)).head? := (h.queued.lists.chain (.senders p)).head?
    refine ⟨k', j, hr, ⟨hsend, hpart⟩, ?_, hmet.readied hp.1 hsend (.inl rfl), hmet.meeting h.queued.lists hpj' hex⟩
    exact hpj.imp (fun h0 => ⟨h0, hhead.trans (hfirst h0)⟩) Eq.symm
  · rcases hi with h0 | hpi
    · rw [hany h0] at hmem
      cases hmem
    · exact absurd hpi.symm (hnone i hmem)

end

/-- Who is blocked sending to `p`, or receiving from `p` alone. -/
def WaitsFor (k : Kernel) (partner : Idx → Word) (i p : Idx) : Prop :=
  (k.state i = .SENDING ∨ k.state i = .RECEIVING) ∧ partner i = k.pid p

/-- `i`, on no queue of ready processes before, is made ready once and told that the pid is gone. -/
structure Released (k k' : Kernel) (i : Idx) : Prop where
  ready : k'.state i = .READY
  told : k'.irc i = SYS_SR_NO_PID
  queues : ∃ f f', Family k.links f ∧ Family k'.links f' ∧ i ∉ f .ready ∧ OnlyOn f' .ready i

/-- Who waits for `p` is on one of its two lists, and is not ready. -/
theorem Sound.waits_listed (h : Sound k partner f) (hp : Runs k p) (hx : ExactMap k) (hi : WaitsFor k partner i p) :
    i ∈ f (.senders p) ++ f (.receivers p) ∧ i ∉ f .ready := by
  have hplive := live_of_runs hp
  constructor
  · obtain ⟨hs | hr, hpid⟩ := hi
    · exact List.mem_append_left _ (h.sender_mem hx hplive ⟨hs, hpid⟩)
    · exact List.mem_append_right _ (h.receiver_mem hx hplive hr hpid)
  · intro hm
    have hready : k.state i = .READY := h.queued.fits _ i hm
    rcases hi.1 with hs | hr
    · exact absurd (hready.symm.trans hs) (by simp)
    · exact absurd (hready.symm.trans hr) (by simp)

theorem Sound.cleanup_releases (h : Sound k partner f) (hp : Runs k p) (hx : ExactMap k)
    (hc : Xeros.cleanup keyboards k p = some k') (hi : WaitsFor k partner i p) : Released k k' i := by
  obtain ⟨hmem, hnot⟩ := h.waits_listed hp hx hi
  obtain ⟨f', h', -, -, -, hfreed, -⟩ := h.cleanup hp.1 hc
  obtain ⟨hready, htold⟩ := hfreed i hmem
  exact ⟨hready, htold, f, f', h.queued.lists, h'.queued.lists, hnot, h'.only_ready hready⟩

/-- The loops of `cleanup` end, and have released everybody who waits for `p`. -/
theorem Sound.drain_releases (h : Sound k partner f) (hp : Runs k p) (hx : ExactMap k) :
    ∃ k', (Xeros.drain (.senders p) DRAIN_FUEL k).bind (Xeros.drain (.receivers p) DRAIN_FUEL) = some k' ∧
      ∀ i, WaitsFor k partner i p → Released k k' i := by
  obtain ⟨k1, k2, h1, h2, hl, e, -⟩ := drain_both h.queued.lists p
  refine ⟨k2, by rw [h1, Option.bind_some, h2], fun i hi => ?_⟩
  obtain ⟨hmem, hnot⟩ := h.waits_listed hp hx hi
  have hready : i ∈ cleaned f p .ready := by
    rw [cleaned_ready, List.append_assoc]
    exact List.mem_append_right _ hmem
  have honly : OnlyOn (cleaned f p) .ready i :=
    ⟨List.count_eq_one_of_mem (hl.nodup .ready) hready, fun q hq hi => hq (hl.disj q .ready i hi hready)⟩
  refine ⟨?_, ?_, f, cleaned f p, h.queued.lists, hl, hnot, honly⟩
  · rw [e]
    exact setAll_mem _ _ hmem
  · rw [e]
    exact setAll_mem _ _ hmem

/-- The calls of `kfree` that `cleanup` makes return. -/
def FreesReturn (k : Kernel) (p : Idx) : Prop :=
  ((kfree k.toHeap (k.stack p)).bind fun h => delete h k.pidMap (k.pid p)).isSome

instance (k : Kernel) (p : Idx) : Decidable (FreesReturn k p) := inferInstanceAs (Decidable (_ = true))

/-- `cleanup` returns, and has released everybody who waits for `p`. -/
theorem Sound.cleanup_returns (h : Sound k partner f) (hp : Runs k p) (hx : ExactMap k) (hf : FreesReturn k p) :
    ∃ k', Xeros.cleanup keyboards k p = some k' ∧ ∀ i, WaitsFor k partner i p → Released k k' i := by
  have hsome := (cleanup_frame h.queued.lists (h.running hp.1) h.map.ordered).1.2 hf
  obtain ⟨k', hc⟩ := Option.isSome_iff_exists.1 hsome
  exact ⟨k', hc, fun i => h.cleanup_releases hp hx hc⟩

/-! ## Results -/

/-- What a request of the running process does to those that wait for it. -/
structure Answered (s : Traced) : Prop where
  sends : ∀ e k p, trapped s.sys e = some (k, p, some .SEND) → ∀ d, k.pid d = k.arg p 0 →
    ReceivesFrom k s.partner d p → ((∃ k', talk k p .SEND = some k' ∧ Meeting k k' p d p d) ↔ CopyReturns k p d)
  receives : ∀ e k p, trapped s.sys e = some (k, p, some .RECV) → ∀ i, SendsTo k s.partner i p →
    (k.mem.load32 (k.arg p 0) = 0 ∨ k.mem.load32 (k.arg p 0) = k.pid i) →
    ∃ j, SendsTo k s.partner j p ∧
      (k.mem.load32 (k.arg p 0) = 0 ∧ k.senders p = some j ∨ k.mem.load32 (k.arg p 0) = k.pid j) ∧
      ((∃ k', talk k p .RECV = some k' ∧ Meeting k k' p j j p) ↔ CopyReturns k j p)
  stops : ∀ e k p, trapped s.sys e = some (k, p, some .STOP) →
    (∃ k', (drain (.senders p) DRAIN_FUEL k).bind (drain (.receivers p) DRAIN_FUEL) = some k' ∧
      ∀ i, WaitsFor k s.partner i p → Released k k' i) ∧
    (FreesReturn k p → ∃ k', cleanup keyboards k p = some k' ∧ ∀ i, WaitsFor k s.partner i p → Released k k' i)

theorem returns_iff {P : Kernel → Prop} {c : Prop} [Decidable c] (hk : P k') :
    (∃ k'', (if c then some k' else none) = some k'' ∧ P k'') ↔ c := by
  constructor
  · rintro ⟨k'', hs, -⟩
    by_contra hc
    rw [if_neg hc] at hs
    cases hs
  · intro hc
    exact ⟨k', if_pos hc, hk⟩

theorem SendsTo.retarget_iff (hp : k.state p = .RUNNING) (w : Word) :
    SendsTo k (Function.update partner p w) i d ↔ SendsTo k partner i d := by
  refine and_congr_right fun hi => ?_
  have hip : i ≠ p := ne_of_apply_ne k.state (by simp [hi, hp])
  rw [Function.update_of_ne hip]

theorem ReceivesFrom.retarget_iff (hp : k.state p = .RUNNING) (w : Word) :
    ReceivesFrom k (Function.update partner p w) d i ↔ ReceivesFrom k partner d i := by
  refine and_congr_right fun hd => ?_
  have hdp : d ≠ p := ne_of_apply_ne k.state (by simp [hd, hp])
  rw [Function.update_of_ne hdp]

namespace MsgInv
variable {s : Traced}

theorem answered (h : MsgInv s) (hx : ExactMap s.sys.kernel) : Answered s := by
  constructor
  · intro e k p ht d hd hrecv
    obtain ⟨⟨f, hf⟩, hp, hexact, -, hcells⟩ := h.at_trap ht
    have hf' : Sound k (Function.update s.partner p (k.arg p 0)) f := ⟨hf.queued.retarget hp.1 _, hf.map⟩
    obtain ⟨k', hs, hreadied, hmeet⟩ := hf'.send_meets hp (hexact hx) (hcells.retarget hp.1 (some _))
      (Function.update_self ..) hd ((ReceivesFrom.retarget_iff hp.1 _).2 hrecv)
    have htalk : talk k p .SEND = if CopyReturns k p d then some k' else none := by
      simp only [talk, hs, hreadied, Option.bind_eq_bind, Option.bind_some, Option.all_some, decide_eq_true_eq]
    rw [htalk]
    exact returns_iff hmeet
  · intro e k p ht i hs hi
    obtain ⟨⟨f, hf⟩, hp, hexact, -⟩ := h.at_trap ht
    have hf' : Sound k (Function.update s.partner p (k.mem.load32 (k.arg p 0))) f := ⟨hf.queued.retarget hp.1 _, hf.map⟩
    have hself : Function.update s.partner p (k.mem.load32 (k.arg p 0)) p = k.mem.load32 (k.arg p 0) :=
      Function.update_self ..
    obtain ⟨k', j, hr, hj, hpj, hreadied, hmeet⟩ :=
      hf'.receive_meets hp (hexact hx) hself ((SendsTo.retarget_iff hp.1 _).2 hs) (by rwa [hself])
    rw [hself] at hpj
    refine ⟨j, (SendsTo.retarget_iff hp.1 _).1 hj, hpj, ?_⟩
    have htalk : talk k p .RECV = if CopyReturns k j p then some k' else none := by
      simp only [talk, hr, hreadied, Option.bind_eq_bind, Option.bind_some, Option.all_some, decide_eq_true_eq]
    rw [htalk]
    exact returns_iff hmeet
  · intro e k p ht
    obtain ⟨⟨f, hf⟩, hp, hexact, -⟩ := h.at_trap ht
    exact ⟨hf.drain_releases hp (hexact hx), hf.cleanup_returns hp (hexact hx)⟩

theorem of_reach (hs : Reach (msgStep im) (TracedInit im) (MessagesOnly im) s) : MsgInv s := by
  refine hs.inv MsgInv ?_ fun _ _ _ h hok ht => h.step hok ht
  rintro s ⟨m, root, idleproc, hb⟩
  obtain ⟨htraced, hfree⟩ := TracedInv.boot hb
  exact ⟨htraced, .of_unblocked hfree, fun d hd => absurd (.inr hd) (hfree d)⟩

end MsgInv

/-- In every run of these requests and ticks no rendezvous is missed. Where a
sender and a receiver match, they meet exactly when the copy comes back, and a
process that stops releases those that wait for it. -/
theorem rendezvous_kept {s : Traced} (hs : Reach (msgStep im) (TracedInit im) (MessagesOnly im) s) :
    NoneMissed s.sys.kernel s.partner ∧ (ExactMap s.sys.kernel → Answered s) := by
  have h : MsgInv s := .of_reach hs
  exact ⟨h.missed, h.answered⟩

def talksOnly (s : Sys) (e : Event) : Bool :=
  match e with
  | .user _ | .timer .. => true
  | .keyboard _ => false
  | .syscall _ => (trapped s e).any fun x => x.2.2.any fun r => decide (Talks r)

theorem talksOnly_ok {s : Sys} {e : Event} (h : talksOnly s e = true) : TalksOnly s e := by
  cases e with
  | user g => trivial
  | timer esp eax => trivial
  | keyboard codes => cases h
  | syscall esp =>
    obtain ⟨⟨k, p, o⟩, hx, ho⟩ := (Option.any_eq_true ..).1 h
    obtain ⟨r, hr, ht⟩ := (Option.any_eq_true ..).1 ho
    simp only at hr
    exact ⟨k, p, r, by rw [hx, hr], of_decide_eq_true ht⟩

/-- The guard of a step of the machine, as a test. -/
def messageEvent (im : Image) (s : Traced) : MsgEvent → Bool
  | .machine e => decide (ExactMap s.sys.kernel) && talksOnly s.sys e &&
      (tracedStep im e s).all fun s' => decide (CellsPrivate s'.sys.kernel s'.partner)
  | .remap _ => false

theorem messageEvent_ok {s : Traced} {e : MsgEvent} (h : messageEvent im s e = true) : MessagesOnly im s e := by
  cases e with
  | remap t => cases h
  | machine e =>
    rw [messageEvent, Bool.and_eq_true, Bool.and_eq_true] at h
    obtain ⟨⟨hx, hto⟩, hcells⟩ := h
    refine ⟨of_decide_eq_true hx, talksOnly_ok hto, fun s' hs' => ?_⟩
    exact of_decide_eq_true ((Option.all_eq_true ..).1 hcells s' hs')

/-- The request that a process is about to make. -/
def about (s : Traced) (e : Event) (p : Idx) (r : Request) (test : Kernel → Bool) : Bool :=
  (trapped s.sys e).any fun x => decide (x.2.1 = p ∧ x.2.2 = some r) && test x.1

theorem about_ok {s : Traced} {e : Event} {r : Request} {test : Kernel → Bool} (h : about s e p r test = true) :
    ∃ k, trapped s.sys e = some (k, p, some r) ∧ test k = true := by
  obtain ⟨⟨k, q, o⟩, ht, h⟩ := (Option.any_eq_true ..).1 h
  rw [Bool.and_eq_true] at h
  obtain ⟨rfl, rfl⟩ := of_decide_eq_true h.1
  exact ⟨k, ht, h.2⟩

/-- Process 0 sends to the idle process, whose cell then reads 1, and creates
process 2, which blocks sending to it. Then process 0 stops, and releases it. -/
theorem rendezvous_kept_3_processes : ∃ s k k',
    Reach (msgStep sampleImage) (TracedInit sampleImage) (MessagesOnly sampleImage) s ∧
    s.sys.kernel.mem.load32 0x12000 = 1 ∧ NoneMissed s.sys.kernel s.partner ∧
    trapped s.sys (.syscall 0x10000) = some (k, 0, some .STOP) ∧ cleanup keyboards k 0 = some k' ∧ Released k k' 2 := by
  have h0 : Reach (msgStep sampleImage) (TracedInit sampleImage) (MessagesOnly sampleImage) tracedBoot :=
    .start tracedBoot_init
  obtain ⟨s, hs, ht⟩ := h0.exec_ok (messageEvent sampleImage) (fun _ _ => messageEvent_ok)
    ((call 0x10000 .SEND [2, 0x14000, 4] ++ call 0x11000 .RECV [0x12000, 0x12100, 4] ++
      call 0x10000 .CREATE [0x7000, 0x1000] ++ call 0x13000 .SEND [1, 0x14000, 4] ++
      (call 0x10000 .STOP []).take 1).map .machine)
    (fun s => decide (s.sys.kernel.mem.load32 0x12000 = 1 ∧ ExactMap s.sys.kernel) &&
      about s (.syscall 0x10000) 0 .STOP fun k =>
        decide (FreesReturn k 0 ∧ k.state 2 = .SENDING ∧ s.partner 2 = k.pid 0)) (by decide +kernel)
  rw [Bool.and_eq_true] at ht
  obtain ⟨hcell, hx⟩ := of_decide_eq_true ht.1
  obtain ⟨k, htrap, hk⟩ := about_ok ht.2
  obtain ⟨hfrees, hsending, hpartner⟩ := of_decide_eq_true hk
  obtain ⟨hmissed, hanswered⟩ := rendezvous_kept hs
  obtain ⟨k', hc, hreleased⟩ := ((hanswered hx).stops _ k 0 htrap).2 hfrees
  exact ⟨s, k, k', hs, hcell, hmissed, htrap, hc, hreleased 2 ⟨.inl hsending, hpartner⟩⟩

/-- Process 0 waits for four bytes from any, and the idle process sends it -1. -/
theorem rendezvous_faults : ¬∀ im s, Reach (msgStep im) (TracedInit im) (MessagesOnly im) s → ExactMap s.sys.kernel →
    ∀ e k p, trapped s.sys e = some (k, p, some .SEND) → ∀ d, k.pid d = k.arg p 0 → ReceivesFrom k s.partner d p →
      ∃ k', talk k p .SEND = some k' ∧ Meeting k k' p d p d := by
  intro hall
  have h0 : Reach (msgStep sampleImage) (TracedInit sampleImage) (MessagesOnly sampleImage) tracedBoot :=
    .start tracedBoot_init
  obtain ⟨s, hs, ht⟩ := h0.exec_ok (messageEvent sampleImage) (fun _ _ => messageEvent_ok)
    ((call 0x10000 .RECV [0x12000, 0x12100, 4] ++ (call 0x11000 .SEND [1, 0x14000, -1]).take 1).map .machine)
    (fun s => decide (ExactMap s.sys.kernel) && about s (.syscall 0x11000) 1 .SEND fun k =>
      decide (k.pid 0 = k.arg 1 0 ∧ k.state 0 = .RECEIVING ∧ s.partner 0 = 0 ∧ ¬CopyReturns k 1 0)) (by decide +kernel)
  rw [Bool.and_eq_true] at ht
  have hx := of_decide_eq_true ht.1
  obtain ⟨k, htrap, hk⟩ := about_ok ht.2
  obtain ⟨hpid, hrecv, hpartner, hfaults⟩ := of_decide_eq_true hk
  have hmeets : ReceivesFrom k s.partner 0 1 := ⟨hrecv, .inl hpartner⟩
  have hiff := ((MsgInv.of_reach hs).answered hx).sends _ k 1 htrap 0 hpid hmeets
  exact hfaults (hiff.1 (hall sampleImage s hs hx _ k 1 htrap 0 hpid hmeets))

end Xeros
