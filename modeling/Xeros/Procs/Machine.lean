import Xeros.Procs.Requests
import Xeros.Model.Syscall
import Xeros.Lib.Runs
/-!
# Every process is queued where its state says

The whole machine from boot. In every run in which nothing calls `ready` on a
process that another list still holds, every process but the running one is on
exactly the list its state calls for (`traced_in_place`). A `KILL` can break
this (`processes_torn`).
-/

namespace Xeros

open Links Kernel Runs

/-! ## The machine, traced -/

/-- The machine, with the pid each process named in its latest `SEND` or `RECV`. -/
structure Traced where
  sys : Sys
  partner : Idx → Word

/-- The request the running process enters the kernel with, and the kernel then. -/
def trapped (s : Sys) : Event → Option (Kernel × Idx × Option Request)
  | .syscall esp => do
    let p ← s.cur
    let (k, n) := syscall_entry s.kernel p esp
    some (k, p, Request.all[n.toNat]?)
  | .timer esp eax => do
    let p ← s.cur
    some (timer_entry s.kernel p esp eax, p, some .SYS_TIMER)
  | _ => none

/-- `p` names `w`, or nobody. -/
def retarget (partner : Idx → Word) (p : Idx) : Option Word → Idx → Word
  | some w => Function.update partner p w
  | none => partner

/-- The partners after an event. -/
def partners (s : Traced) (e : Event) : Idx → Word :=
  match trapped s.sys e with
  | some (k, p, r) => retarget s.partner p (r.bind (named k p))
  | none => s.partner

def tracedStep (im : Image) (e : Event) (s : Traced) : Option Traced := do
  let sys ← step im e s.sys
  some ⟨sys, partners s e⟩

/-- The machine after `initproc`. -/
def TracedInit (im : Image) (s : Traced) : Prop := ∃ m root idleproc, boot im m root idleproc = some s.sys

/-- On list `q` once, and on no other. -/
def OnlyOn (f : Queue → List Idx) (q : Queue) (i : Idx) : Prop := (f q).count i = 1 ∧ ∀ r, r ≠ q → i ∉ f r

/-- Process `i` is queued where its state says. -/
def Placed (k : Kernel) (partner : Idx → Word) (f : Queue → List Idx) (i : Idx) : Prop :=
  match k.state i with
  | .READY => OnlyOn f .ready i
  | .SENDING => ∃ d, k.state d ≠ .STOPPED ∧ OnlyOn f (.senders d) i
  | .RECEIVING =>
    if partner i = 0 then ∀ q, i ∉ f q
    else ∃ d, k.state d ≠ .STOPPED ∧ OnlyOn f (.receivers d) i
  | .SLEEPING => OnlyOn f .sleepers i
  | .STOPPED | .RUNNING | .READING | .WRITING | .WAITING => ∀ q, i ∉ f q

/-- The lists end and share no process, and every process but the running one is
in its place. -/
def InPlace (s : Traced) : Prop :=
  ∃ f, Family s.sys.kernel.links f ∧ ∀ i, s.sys.cur ≠ some i → Placed s.sys.kernel s.partner f i

/-- Nothing makes a process ready that is still on another list. -/
def ReadiesUnlisted (s : Traced) (e : Event) : Prop :=
  match e with
  | .keyboard codes => InterruptOk s.sys.kernel codes
  | e =>
    match trapped s.sys e with
    | some (k, p, some r) => RequestOk k s.partner p r
    | _ => True

/-! ## The invariant -/

structure TracedInv (s : Traced) : Prop where
  sound : ∃ f, Sound s.sys.kernel s.partner f
  runs : ∀ p, s.sys.cur = some p → Runs s.sys.kernel p

theorem Sound.placed {k : Kernel} {partner : Idx → Word} {f : Queue → List Idx} (h : Sound k partner f) (i : Idx) :
    Placed k partner f i := by
  have honly {q : Queue} (hq : i ∈ f q) : OnlyOn f q i :=
    ⟨List.count_eq_one_of_mem (h.queued.lists.nodup q) hq, fun r hr hi => hr (h.queued.lists.disj r q i hi hq)⟩
  have hnone (hl : ¬Listed (k.state i) (partner i)) : ∀ q, i ∉ f q := h.queued.unlisted hl
  have hsome (hl : Listed (k.state i) (partner i)) :
      ∃ q, OnlyOn f q i ∧ Fits k.state k.pid partner i q ∧ q.state = k.state i := by
    obtain ⟨q, hq⟩ := h.queued.listed i hl
    exact ⟨q, honly hq, h.queued.fits q i hq, (h.queued.fits q i hq).state_eq⟩
  unfold Placed
  cases hst : k.state i with
  | STOPPED => exact hnone (by rw [hst]; exact id)
  | RUNNING => exact hnone (by rw [hst]; exact id)
  | READING => exact hnone (by rw [hst]; exact id)
  | WRITING => exact hnone (by rw [hst]; exact id)
  | WAITING => exact hnone (by rw [hst]; exact id)
  | READY =>
    obtain ⟨q, hq, -, hqs⟩ := hsome (by rw [hst]; trivial)
    rw [hst] at hqs
    cases q with
    | ready => exact hq
    | _ => cases hqs
  | SLEEPING =>
    obtain ⟨q, hq, -, hqs⟩ := hsome (by rw [hst]; trivial)
    rw [hst] at hqs
    cases q with
    | sleepers => exact hq
    | _ => cases hqs
  | SENDING =>
    obtain ⟨q, hq, hfit, hqs⟩ := hsome (by rw [hst]; trivial)
    rw [hst] at hqs
    cases q with
    | senders d => exact ⟨d, hfit.2.1, hq⟩
    | _ => cases hqs
  | RECEIVING =>
    by_cases h0 : partner i = 0
    · simp only [if_pos h0]
      exact hnone (by rw [hst]; exact fun hne => hne h0)
    · simp only [if_neg h0]
      obtain ⟨q, hq, hfit, hqs⟩ := hsome (by rw [hst]; exact h0)
      rw [hst] at hqs
      cases q with
      | receivers d => exact ⟨d, hfit.2.2.1, hq⟩
      | _ => cases hqs

/-- The condition is about processes that are blocked, and the caller is not. -/
theorem RequestOk.retarget {k : Kernel} {partner : Idx → Word} {p : Idx} {r : Request} (h : RequestOk k partner p r)
    (hp : k.state p = .RUNNING) (w : Option Word) : RequestOk k (Xeros.retarget partner p w) p r := by
  have hne : ∀ d, k.state d = .RECEIVING → Xeros.retarget partner p w d = partner d := by
    intro d hd
    have hdp : d ≠ p := ne_of_apply_ne k.state (by simp [hd, hp])
    cases w with
    | none => rfl
    | some w => exact Function.update_of_ne hdp ..
  cases r with
  | SEND =>
    intro d hl hst hcell h0
    rw [hne d hst] at h0
    exact h d hl hst hcell h0
  | KILL =>
    intro q hq
    obtain ⟨h1, h2, h3⟩ := h q hq
    refine ⟨h1, h2, fun hst => ?_⟩
    rw [hne q hst]
    exact h3 hst
  | _ => trivial

theorem Sound.renamed {k : Kernel} {partner : Idx → Word} {f : Queue → List Idx} {p : Idx} (h : Sound k partner f)
    (hp : Runs k p) (w : Option Word) : Sound k (retarget partner p w) f := by
  refine ⟨?_, h.map⟩
  cases w with
  | none => exact h.queued
  | some w => exact h.queued.retarget hp.1 w

/-- The request of the running process, with the partner it names. -/
theorem Sound.handled {im : Image} {k k' : Kernel} {partner : Idx → Word} {f : Queue → List Idx} {p : Idx} {r : Request}
    {tr : Option Idx} (h : Sound k partner f) (hp : Runs k p) (hok : RequestOk k partner p r)
    (hh : Xeros.handle_request im k p r = some (k', tr)) :
    (∃ f', Sound k' (retarget partner p (named k p r)) f' ∧ (Quiet r → SameMessages f f')) ∧
      ∀ q, tr = some q → k'.state q = .RUNNING := by
  refine (h.renamed hp (named k p r)).handle_request hp (hok.retarget hp.1 _) (fun w hw => ?_) hh
  rw [hw]
  exact Function.update_self ..

/-- One turn of the dispatcher for a request of the running process. -/
theorem Sound.dispatch_request {im : Image} {k : Kernel} {partner : Idx → Word} {f : Queue → List Idx} {p : Idx}
    {r : Option Request} {s : Sys} (h : Sound k partner f) (hp : Runs k p)
    (hok : ∀ x, r = some x → RequestOk k partner p x) (hd : Xeros.dispatch_request im k p r = some s) :
    TracedInv ⟨s, retarget partner p (r.bind (named k p))⟩ := by
  have h' : Sound k (retarget partner p (r.bind (named k p))) f := h.renamed hp _
  unfold Xeros.dispatch_request at hd
  split at hd
  · cases hd
    refine ⟨⟨f, h'.queued, h'.map⟩, ?_⟩
    rintro q ⟨⟩
    exact hp
  · next x hx =>
    obtain ⟨⟨k1, tr⟩, hh, hd⟩ := Option.bind_eq_some_iff.1 hd
    obtain ⟨⟨f1, h1, -⟩, htr⟩ := h.handled hp (hok x rfl) hh
    obtain ⟨⟨f2, h2, -⟩, hruns, -⟩ := h1.dispatch_next htr hd
    exact ⟨⟨f2, h2⟩, hruns⟩
  · obtain ⟨⟨f1, h1, -⟩, hruns, -⟩ := h'.dispatch_next (by rintro q ⟨⟩) hd
    exact ⟨⟨f1, h1⟩, hruns⟩

/-! ## Steps -/

/-- A trap is one of the running process. -/
theorem trapped_cur {s : Sys} {e : Event} {k : Kernel} {p : Idx} {r : Option Request}
    (ht : trapped s e = some (k, p, r)) : s.cur = some p := by
  cases e with
  | user g => cases ht
  | keyboard codes => cases ht
  | syscall esp =>
    obtain ⟨q, hq, e⟩ := Option.bind_eq_some_iff.1 ht
    cases e
    exact hq
  | timer esp eax =>
    obtain ⟨q, hq, e⟩ := Option.bind_eq_some_iff.1 ht
    cases e
    exact hq

/-- A trap changes neither lists nor states nor pids. -/
theorem trapped_frame {s : Sys} {e : Event} {k : Kernel} {p : Idx} {r : Option Request}
    (ht : trapped s e = some (k, p, r)) : k.links = s.kernel.links ∧ k.state = s.kernel.state ∧ k.pid = s.kernel.pid ∧
      k.pidMap = s.kernel.pidMap := by
  cases e with
  | user g => cases ht
  | keyboard codes => cases ht
  | syscall esp =>
    obtain ⟨q, -, e⟩ := Option.bind_eq_some_iff.1 ht
    cases e
    exact ⟨rfl, rfl, rfl, rfl⟩
  | timer esp eax =>
    obtain ⟨q, -, e⟩ := Option.bind_eq_some_iff.1 ht
    cases e
    exact ⟨rfl, rfl, rfl, rfl⟩

theorem tracedStep_halted {im : Image} {s : Traced} {e : Event} (hs : s.sys.cur = none) : tracedStep im e s = none := by
  unfold tracedStep step
  rw [hs]
  rfl

theorem tracedStep_user (im : Image) (g : Mem → Mem) (s : Traced) :
    tracedStep im (.user g) s = s.sys.cur.bind fun _ =>
      some ⟨{ s.sys with kernel := { s.sys.kernel with mem := g s.sys.kernel.mem } }, s.partner⟩ := by
  obtain ⟨⟨k, cur⟩, partner⟩ := s
  cases cur <;> rfl

theorem tracedStep_keyboard (im : Image) (codes : List Byte) (s : Traced) :
    tracedStep im (.keyboard codes) s = s.sys.cur.bind fun _ =>
      (keyboard_lower s.sys.kernel codes).bind fun x => some ⟨{ s.sys with kernel := x.1 }, s.partner⟩ := by
  obtain ⟨⟨k, cur⟩, partner⟩ := s
  cases cur with
  | none => rfl
  | some p =>
    unfold tracedStep step
    simp only []
    cases keyboard_lower k codes <;> rfl

/-- A step that enters the kernel is a turn of the dispatcher. -/
theorem tracedStep_trapped {im : Image} {s : Traced} {e : Event} {k : Kernel} {p : Idx} {r : Option Request}
    (ht : trapped s.sys e = some (k, p, r)) :
    tracedStep im e s = (Xeros.dispatch_request im k p r).bind fun sys =>
      some ⟨sys, retarget s.partner p (r.bind (named k p))⟩ := by
  have hpartners : partners s e = retarget s.partner p (r.bind (named k p)) := by
    unfold partners
    rw [ht]
  unfold tracedStep
  rw [hpartners]
  cases e with
  | user g => cases ht
  | keyboard codes => cases ht
  | syscall esp =>
    obtain ⟨q, hq, e⟩ := Option.bind_eq_some_iff.1 ht
    cases e
    unfold step
    rw [hq]
    rfl
  | timer esp eax =>
    obtain ⟨q, hq, e⟩ := Option.bind_eq_some_iff.1 ht
    cases e
    unfold step
    rw [hq]
    rfl

/-- Memory changes, a keyboard interrupt, or a request of the running process. -/
theorem tracedStep_cases {im : Image} {s s' : Traced} {e : Event} (ht : tracedStep im e s = some s') :
    (∃ g, e = .user g ∧ s' = ⟨{ s.sys with kernel := { s.sys.kernel with mem := g s.sys.kernel.mem } }, s.partner⟩) ∨
    (∃ codes k t, e = .keyboard codes ∧ keyboard_lower s.sys.kernel codes = some (k, t) ∧
      s' = ⟨{ s.sys with kernel := k }, s.partner⟩) ∨
    ∃ k p r sys, trapped s.sys e = some (k, p, r) ∧ Xeros.dispatch_request im k p r = some sys ∧
      s' = ⟨sys, retarget s.partner p (r.bind (named k p))⟩ := by
  have htrap (h : (trapped s.sys e).isSome) :
      ∃ k p r sys, trapped s.sys e = some (k, p, r) ∧ Xeros.dispatch_request im k p r = some sys ∧
        s' = ⟨sys, retarget s.partner p (r.bind (named k p))⟩ := by
    obtain ⟨⟨k, p, r⟩, htr⟩ := Option.isSome_iff_exists.1 h
    rw [tracedStep_trapped htr] at ht
    obtain ⟨sys, hd, ht⟩ := Option.bind_eq_some_iff.1 ht
    exact ⟨k, p, r, sys, htr, hd, (Option.some.inj ht).symm⟩
  cases hcur : s.sys.cur with
  | none =>
    rw [tracedStep_halted hcur] at ht
    cases ht
  | some p =>
    cases e with
    | user g =>
      rw [tracedStep_user, hcur] at ht
      exact .inl ⟨g, rfl, (Option.some.inj ht).symm⟩
    | keyboard codes =>
      rw [tracedStep_keyboard, hcur, Option.bind_some] at ht
      obtain ⟨⟨k, t⟩, hl, ht⟩ := Option.bind_eq_some_iff.1 ht
      exact .inr (.inl ⟨codes, k, t, rfl, hl, (Option.some.inj ht).symm⟩)
    | syscall esp =>
      refine .inr (.inr (htrap ?_))
      rw [trapped, hcur]
      rfl
    | timer esp eax =>
      refine .inr (.inr (htrap ?_))
      rw [trapped, hcur]
      rfl

/-- A trap keeps the lists, and the caller still runs. -/
theorem TracedInv.at_trap {s : Traced} {e : Event} {k : Kernel} {p : Idx} {r : Option Request} (h : TracedInv s)
    (ht : trapped s.sys e = some (k, p, r)) : (∃ f, Sound k s.partner f) ∧ Runs k p := by
  obtain ⟨f, hf⟩ := h.sound
  obtain ⟨hlinks, hstate, hpid, hmap⟩ := trapped_frame ht
  obtain ⟨hrun, hnext⟩ := h.runs p (trapped_cur ht)
  refine ⟨⟨f, hf.same hlinks hstate hpid hmap⟩, by rw [hstate, hrun], ?_⟩
  exact (congrFun hlinks (.next p)).trans hnext

theorem ReadiesUnlisted.request {s : Traced} {e : Event} {k : Kernel} {p : Idx} {r : Request} (h : ReadiesUnlisted s e)
    (ht : trapped s.sys e = some (k, p, some r)) : RequestOk k s.partner p r := by
  unfold ReadiesUnlisted at h
  cases e with
  | user g => cases ht
  | keyboard codes => cases ht
  | syscall esp =>
    simp only [ht] at h
    exact h
  | timer esp eax =>
    simp only [ht] at h
    exact h

theorem TracedInv.step {im : Image} {s s' : Traced} {e : Event} (h : TracedInv s) (hok : ReadiesUnlisted s e)
    (ht : tracedStep im e s = some s') : TracedInv s' := by
  rcases tracedStep_cases ht with ⟨g, rfl, rfl⟩ | ⟨codes, k, t, rfl, hl, rfl⟩ | ⟨k, p, r, sys, htr, hd, rfl⟩
  · obtain ⟨f, hf⟩ := h.sound
    exact ⟨⟨f, hf.queued, hf.map⟩, h.runs⟩
  · obtain ⟨f, hf⟩ := h.sound
    obtain ⟨⟨f1, h1, -⟩, hkeep⟩ := hf.keyboard_lower hok hl
    exact ⟨⟨f1, h1⟩, fun q hq => hkeep q (h.runs q hq)⟩
  · obtain ⟨⟨f, hf⟩, hp⟩ := h.at_trap htr
    refine hf.dispatch_request hp (fun x hx => ?_) hd
    subst hx
    exact hok.request htr

theorem TracedInv.inPlace {s : Traced} (h : TracedInv s) : InPlace s := by
  obtain ⟨f, hf⟩ := h.sound
  exact ⟨f, hf.queued.lists, fun i _ => hf.placed i⟩

/-! ## Boot -/

theorem Sound.init (im : Image) (m : Mem) (partner : Idx → Word) : Sound (init im m) partner fun _ => [] := by
  refine ⟨⟨⟨?_, fun _ => List.nodup_nil, ?_⟩, ?_, ?_⟩, MapSound.empty _ fun _ => rfl⟩
  · rintro (_ | _ | d | d) <;> rfl
  · intro a b i hi
    cases hi
  · intro q i hi
    cases hi
  · intro i hi
    exact hi.elim

/-- After boot everything is in its place, and nobody is blocked on a message. -/
theorem TracedInv.boot {im : Image} {m : Mem} {root idleproc : Word} {s : Traced}
    (hb : boot im m root idleproc = some s.sys) : TracedInv s ∧ ∀ i, ¬Blocked (s.sys.kernel.state i) := by
  obtain ⟨⟨pid1, k1⟩, hc1, hb⟩ := Option.bind_eq_some_iff.1 hb
  obtain ⟨⟨f1, h1, -⟩, hb1, -⟩ := (Sound.init im m s.partner).create hc1
  obtain ⟨⟨pid2, k2⟩, hc2, hb⟩ := Option.bind_eq_some_iff.1 hb
  obtain ⟨⟨f2, h2, -⟩, hb2, -⟩ := h1.create hc2
  obtain ⟨pcb_index, -, hb⟩ := Option.bind_eq_some_iff.1 hb
  obtain ⟨idle, -, hb⟩ := Option.bind_eq_some_iff.1 hb
  set k3 : Kernel := { k2 with idle := some idle } with hk3
  have h3 : Sound k3 s.partner f2 := ⟨h2.queued, h2.map⟩
  have hfresh {k : Kernel} (hk : NoneBlocks k3 k) : ∀ i, ¬Blocked (k.state i) := by
    intro i hi
    obtain ⟨hst, -⟩ := (hb1.trans hb2).trans hk i hi
    rw [hst] at hi
    exact hi.elim (fun e => by cases e) fun e => by cases e
  simp only [] at hb
  split at hb
  · cases hf : f2 .ready with
    | nil =>
      rw [next_none h3.queued.lists hf] at hb
      have hsys : s.sys = ⟨k3, none⟩ := (Option.some.inj hb).symm
      rw [hsys]
      refine ⟨⟨⟨f2, ?_⟩, ?_⟩, hfresh (.refl k3)⟩
      · rw [hsys]
        exact h3
      · rw [hsys]
        rintro p ⟨⟩
    | cons p is =>
      have hready : k3.state p = .READY := h3.queued.fits .ready p (by rw [hf]; exact List.mem_cons_self)
      obtain ⟨k4, hn, e, hnone, hq⟩ := h3.queued.next hf
      rw [hn] at hb
      have hsys : s.sys = ⟨resume im k4 p, some p⟩ := (Option.some.inj hb).symm
      have hstate : k4.state = k3.state := by rw [e]
      have hpid : k4.pid = k3.pid := by rw [e]
      have hmap : MapSound k4.pidMap k4.pid k4.state := by
        rw [e]
        exact h3.map
      rw [← hstate, ← hpid] at hq
      obtain ⟨h', hruns, hb4⟩ := Sound.resumed im hq hmap (by rw [hstate, hready]; simp) hnone
      have hb3 : NoneBlocks k3 k4 := fun i _ => ⟨congrFun hstate i, congrFun hpid i⟩
      rw [hsys]
      refine ⟨⟨⟨Function.update f2 .ready is, ?_⟩, ?_⟩, hfresh (hb3.trans hb4)⟩
      · rw [hsys]
        exact h'
      · rw [hsys]
        rintro q ⟨⟩
        exact hruns
  · cases hb

/-! ## Results -/

/-- In every run in which only processes on no list are made ready, every
process but the running one is queued exactly where its state says. -/
theorem traced_in_place {im : Image} {s : Traced} (hs : Reach (tracedStep im) (TracedInit im) ReadiesUnlisted s) :
    InPlace s := by
  have h : TracedInv s := by
    refine hs.inv TracedInv ?_ fun _ _ _ h hok ht => h.step hok ht
    rintro s ⟨m, root, idleproc, hb⟩
    exact (TracedInv.boot hb).1
  exact h.inPlace

/-- `initproc` has run and nobody has named a partner. -/
def tracedBoot : Traced := ⟨sampleSys, fun _ => 0⟩

theorem tracedBoot_init : TracedInit sampleImage tracedBoot := ⟨_, _, _, (Option.some_get sampleBoot).symm⟩

/-- No interrupt, no `KILL`, and no `SEND` to a process that is receiving. -/
def plainEvent (s : Traced) (e : Event) : Bool :=
  match trapped s.sys e with
  | some (_, _, some .KILL) => false
  | some (k, p, some .SEND) =>
    (pidMapLookup k (k.arg p 0)).all fun i => (pcbAt i).all fun d => k.state d != .RECEIVING
  | some _ => true
  | none =>
    match e with
    | .keyboard _ => false
    | _ => true

theorem plainEvent_ok {s : Traced} {e : Event} (h : plainEvent s e = true) : ReadiesUnlisted s e := by
  have hrequest : ∀ k p r, trapped s.sys e = some (k, p, some r) → RequestOk k s.partner p r := by
    intro k p r htr
    unfold plainEvent at h
    rw [htr] at h
    cases r with
    | KILL => cases h
    | SEND =>
      intro d hl hst
      simp only [hl, Option.all_some, pcbAt_pcbIndex, bne_iff_ne] at h
      exact absurd hst h
    | _ => trivial
  cases e with
  | keyboard codes => cases h
  | user g => trivial
  | syscall esp =>
    unfold ReadiesUnlisted
    simp only []
    split
    · next k p r htr => exact hrequest k p r htr
    · trivial
  | timer esp eax =>
    unfold ReadiesUnlisted
    simp only []
    split
    · next k p r htr => exact hrequest k p r htr
    · trivial

/-- Process 0 has a handler for signal 3 and sleeps. A `KILL` makes it ready, but
leaves it on the list of sleepers, where it still is when it blocks on a `SEND`. -/
theorem processes_torn : ¬∀ im s, Reach (tracedStep im) (TracedInit im) Any s → InPlace s := by
  intro hall
  have h0 : Reach (tracedStep sampleImage) (TracedInit sampleImage) Any tracedBoot := .start tracedBoot_init
  obtain ⟨s, hs, ht⟩ := h0.exec_any
    (call 0x10000 .SIGHANDLER [3, 0x4000, 0] ++ call 0x10000 .SLEEP [20] ++ call 0x11000 .KILL [1, 3] ++
      call 0x10000 .SEND [2])
    (fun s => decide (s.sys.cur = some 1 ∧ s.sys.kernel.state 0 = .SENDING ∧ s.sys.kernel.sleep_list = some 0))
    (by decide +kernel)
  obtain ⟨hcur, hsending, hsleep⟩ := of_decide_eq_true ht
  obtain ⟨f, hf, hplaced⟩ := hall sampleImage s hs
  have h0 := hplaced 0 (by rw [hcur]; decide)
  simp only [Placed, hsending] at h0
  obtain ⟨d, -, -, honly⟩ := h0
  have hc := hf.chain .sleepers
  cases hl : f .sleepers with
  | nil =>
    rw [hl] at hc
    have hn : s.sys.kernel.sleep_list = none := hc
    rw [hsleep] at hn
    cases hn
  | cons i is =>
    rw [hl] at hc
    have hi : s.sys.kernel.sleep_list = some i := hc.1
    rw [hsleep] at hi
    cases hi
    apply honly .sleepers (by simp)
    rw [hl]
    exact List.mem_cons_self

end Xeros
