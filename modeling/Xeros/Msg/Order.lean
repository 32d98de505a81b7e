import Xeros.Msg.Rendezvous
/-!
# Senders are served in the order they came

The whole machine, with a clock that tells since when each process has been
blocked on a message. The pid map finds every process in use, and nothing calls
`ready` on a process that another list still holds. Then every queue of senders
or receivers is in the order in which its processes were blocked, and a request
takes out of it exactly the process it is for (`served_in_order`).

A `SEND` can call `ready` on a process that another queue holds: one that
receives from a given process, with a from-pid cell that reads 0 by now. The
queue is cut behind it (`served_cut`).
-/

namespace Xeros

open Links Kernel Runs

variable {im : Image} {k k' : Kernel} {partner : Idx → Word} {f : Queue → List Idx} {p i d : Idx} {since : Idx → Nat}

/-! ## The queues -/

/-- The processes on each list, first one first. -/
def queues (k : Kernel) (q : Queue) : List Idx := collect k.links MAX_NUM_PROCESS (.head q)

theorem queues_eq (h : Family k.links f) : queues k = f := by
  funext q
  have hl := h.length_le q
  rw [Fintype.card_fin] at hl
  exact (h.chain q).collect hl

/-- `d` is blocked receiving from `p` alone. -/
def ReceivesOnly (k : Kernel) (partner : Idx → Word) (d p : Idx) : Prop := k.state d = .RECEIVING ∧ partner d = k.pid p

/-- In the order in which they were blocked. -/
def Sorted (since : Idx → Nat) (f : Queue → List Idx) : Prop :=
  ∀ q, q ≠ .ready → q ≠ .sleepers → (f q).Pairwise fun i j => since i < since j

/-- The caller `p` takes `i` out of queue `q`, nothing else happens to the queues, and the message goes over. -/
structure TakesOut (k k' : Kernel) (q : Queue) (p i sender receiver : Idx) : Prop where
  mem : i ∈ queues k q
  others : SameMessages (Function.update (queues k) q ((queues k q).erase i)) (queues k')
  woken : k'.state p = .READY ∧ k'.state i = .READY
  exchanged : Exchanged k k' sender receiver

/-- Nobody leaves a queue. The caller may be put at the end of the queue of the process it named. -/
def TakesNone (k k' : Kernel) (p : Idx) (queue : Idx → Queue) (pid : Word) : Prop :=
  SameMessages (queues k) (queues k') ∨ ∃ d, k.pid d = pid ∧
    SameMessages (Function.update (queues k) (queue d) (queues k (queue d) ++ [p])) (queues k')

/-- What a request of `p` does to the queues. -/
def Serves (since : Idx → Nat) (partner : Idx → Word) (k k' : Kernel) (p : Idx) : Request → Prop
  | .SEND =>
    (∃ d, ReceivesOnly k partner d p ∧ k.pid d = k.arg p 0 ∧ TakesOut k k' (.receivers p) p d p d) ∨
    (∀ d, ReceivesOnly k partner d p → k.pid d ≠ k.arg p 0) ∧ TakesNone k k' p .senders (k.arg p 0)
  | .RECV =>
    if k.mem.load32 (k.arg p 0) = 0 then
      -- the one that has been blocked longest
      (∃ i, SendsTo k partner i p ∧ (∀ j, SendsTo k partner j p → j ≠ i → since i < since j) ∧
        TakesOut k k' (.senders p) p i i p) ∨
      (∀ i, ¬SendsTo k partner i p) ∧ SameMessages (queues k) (queues k')
    else
      (∃ i, SendsTo k partner i p ∧ k.pid i = k.mem.load32 (k.arg p 0) ∧ TakesOut k k' (.senders p) p i i p) ∨
      (∀ i, SendsTo k partner i p → k.pid i ≠ k.mem.load32 (k.arg p 0)) ∧
        TakesNone k k' p .receivers (k.mem.load32 (k.arg p 0))
  | .STOP => SameMessages (Function.update (Function.update (queues k) (.senders p) []) (.receivers p) []) (queues k')
  | _ => SameMessages (queues k) (queues k')

/-! ## Requests -/

/-- A partner that has been met is out of its queue. -/
theorem Met.takesOut {q : Queue} {s r : Idx} (h : Met k k' partner f p d) (hl : Family k.links f) (hd : d ∈ f q)
    (hpd : p ≠ d) (hex : Exchanged k k' s r)
    (hl' : Family k'.links (Function.update (Function.update f q ((f q).erase d)) .ready (f .ready ++ [p, d]))) :
    TakesOut k k' q p d s r := by
  refine ⟨by rwa [queues_eq hl], ?_, ⟨?_, ?_⟩, hex⟩
  · rw [queues_eq hl, queues_eq hl']
    exact .ready _ _
  · rw [h.state, Function.update_of_ne hpd, Function.update_self]
  · rw [h.state, Function.update_self]

section
variable (h : Sound k partner f) (hp : Runs k p) (hx : ExactMap k)
include h hp hx

theorem Sound.send_serves (hdest : partner p = k.arg p 0) (hok : SendOk k partner p (k.arg p 0))
    (hs : send k p (k.arg p 0) = some k') : Serves since partner k k' p .SEND := by
  have hplive := live_of_runs hp
  have hq := queues_eq h.queued.lists
  have hother {d : Idx} (hd : ReceivesOnly k partner d p) : d ≠ p ∧ k.state d ≠ .STOPPED := by
    refine ⟨ne_of_apply_ne k.state (by simp [hd.1, hp.1]), ?_⟩
    rw [hd.1]
    simp
  obtain ⟨k1, hs1, hcases⟩ := send_cases h hp hdest (h.send_cell hok)
  cases Option.some.inj (hs1.symm.trans hs)
  rcases hcases with ⟨hno, -, hl⟩ | ⟨d, hrecv, hpid, -, hmet, hex, hl⟩ | ⟨d, -, hpid, hnone, -, -, hl⟩
  · refine .inr ⟨fun d hd hpid => ?_, .inl ?_⟩
    · obtain ⟨hdp, hlive⟩ := hother hd
      rcases hno with hself | hnone
      · exact hdp (hx.distinct hlive hplive (hpid.trans hself.symm))
      · rw [← hpid, hx d hlive] at hnone
        cases hnone
    · rw [hq, queues_eq hl]
      exact .ready f _
  · have hpd : p ≠ d := ne_of_apply_ne k.state (by simp [hrecv, hp.1])
    by_cases hm : d ∈ f (.receivers p)
    · obtain ⟨-, -, -, hpart⟩ := h.queued.fits _ d hm
      exact .inl ⟨d, ⟨hrecv, hpart⟩, hpid, hmet.takesOut h.queued.lists hm hpd hex hl⟩
    · -- it receives from any, and is on no queue
      refine .inr ⟨fun e he hpe => hm ?_, .inl ?_⟩
      · obtain rfl := hx.distinct (hother he).2 (by rw [hrecv]; simp) (hpe.trans hpid.symm)
        exact h.receiver_mem hx hplive he.1 he.2
      · rw [List.erase_of_not_mem hm, Function.update_eq_self] at hl
        rw [hq, queues_eq hl]
        exact .ready f _
  · refine .inr ⟨fun e he => hnone e (h.receiver_mem hx hplive he.1 he.2), .inr ⟨d, hpid, ?_⟩⟩
    rw [hq, queues_eq hl]
    exact .refl _

theorem Sound.receive_serves (hsort : Sorted since f) (hsrc : partner p = k.mem.load32 (k.arg p 0))
    (hr : receive k p (k.arg p 0) = some k') : Serves since partner k k' p .RECV := by
  have hplive := live_of_runs hp
  have hq := queues_eq h.queued.lists
  have hnonzero := h.map.nonzero p hplive
  obtain ⟨k1, hr1, hcases⟩ := receive_cases h hp hsrc
  cases Option.some.inj (hr1.symm.trans hr)
  simp only [Serves]
  rw [← hsrc]
  rcases hcases with ⟨hno, -, hl⟩ | ⟨i, hi, hpid, hfirst, hmet, hex, hl⟩ | ⟨hempty, hnone, -, hl⟩
  · have h0 : partner p ≠ 0 := by
      rcases hno with hself | ⟨h0, -⟩
      · rwa [← hself]
      · exact h0
    rw [if_neg h0]
    refine .inr ⟨fun i hi hpid => ?_, .inl ?_⟩
    · have hlive : k.state i ≠ .STOPPED := by
        rw [hi.1]
        simp
      rcases hno with hself | ⟨-, hnone⟩
      · obtain rfl := hx.distinct hlive hplive (hpid.trans hself.symm)
        exact absurd (hi.1.symm.trans hp.1) (by simp)
      · rw [← hpid, hx i hlive] at hnone
        cases hnone
    · rw [hq, queues_eq hl]
      exact .ready f _
  · obtain ⟨hsend, hpi⟩ := h.sender hp.1 hi
    have hto : SendsTo k partner i p := ⟨hsend, (h.queued.fits _ i hi).2.2⟩
    have htakes := hmet.takesOut h.queued.lists hi hpi hex hl
    split
    · next h0 =>
      refine .inl ⟨i, hto, fun j hj hji => ?_, htakes⟩
      -- it is the first of the queue
      obtain ⟨is, his⟩ := List.head?_eq_some_iff.1 (hfirst h0)
      have hmem := h.sender_mem hx hplive hj
      have hs := hsort (.senders p) (by simp) (by simp)
      rw [his] at hmem hs
      exact List.rel_of_pairwise_cons hs ((List.mem_cons.1 hmem).resolve_left hji)
    · next h0 => exact .inl ⟨i, hto, hpid.resolve_left h0, htakes⟩
  · split
    · next h0 =>
      refine .inr ⟨fun i hi => ?_, ?_⟩
      · have hmem := h.sender_mem hx hplive hi
        rw [hempty h0] at hmem
        cases hmem
      · rcases hl with ⟨-, hl⟩ | ⟨hne, -⟩
        · rw [hq, queues_eq hl]
          exact .refl f
        · exact absurd h0 hne
    · refine .inr ⟨fun i hi => hnone i (h.sender_mem hx hplive hi), ?_⟩
      rcases hl with ⟨-, hl⟩ | ⟨-, d, hpd, hl⟩
      · rw [TakesNone, hq, queues_eq hl]
        exact .inl (.refl f)
      · refine .inr ⟨d, hpd, ?_⟩
        rw [hq, queues_eq hl]
        exact .refl _

end

theorem Sound.cleanup_serves (h : Sound k partner f) (hp : Runs k p) (hc : Xeros.cleanup keyboards k p = some k') :
    Serves since partner k k' p .STOP := by
  obtain ⟨f', h', ⟨hsend, hrecv, hother⟩, -⟩ := h.cleanup hp.1 hc
  unfold Serves
  rw [queues_eq h.queued.lists, queues_eq h'.queued.lists]
  intro q hr _
  by_cases hqr : q = .receivers p
  · subst hqr
    rw [hrecv, Function.update_self]
  rw [Function.update_of_ne hqr]
  by_cases hqs : q = .senders p
  · subst hqs
    rw [hsend, Function.update_self]
  rw [Function.update_of_ne hqs]
  exact hother q hr hqs hqr

/-- Every request of the running process. -/
theorem Sound.serves {r : Request} {tr : Option Idx} (h : Sound k partner f) (hp : Runs k p) (hx : ExactMap k)
    (hsort : Sorted since f) (hok : RequestOk k partner p r) (hnamed : ∀ w, named k p r = some w → partner p = w)
    (hh : Xeros.handle_request im k p r = some (k', tr)) : Serves since partner k k' p r := by
  by_cases hquiet : Quiet r
  · obtain ⟨⟨f', h', hsame⟩, -⟩ := h.handle_request hp hok hnamed hh
    have hkept : SameMessages (queues k) (queues k') := by
      rw [queues_eq h.queued.lists, queues_eq h'.queued.lists]
      exact hsame hquiet
    cases r with
    | SEND => simp [Quiet] at hquiet
    | RECV => simp [Quiet] at hquiet
    | STOP => simp [Quiet] at hquiet
    | _ => exact hkept
  · cases r with
    | SEND =>
      obtain ⟨k1, hs, hh⟩ := Option.bind_eq_some_iff.1 hh
      cases hh
      exact h.send_serves hp hx (hnamed _ rfl) hok hs
    | RECV =>
      obtain ⟨k1, hr, hh⟩ := Option.bind_eq_some_iff.1 hh
      cases hh
      exact h.receive_serves hp hx hsort (hnamed _ rfl) hr
    | STOP =>
      obtain ⟨k1, hc, hh⟩ := Option.bind_eq_some_iff.1 hh
      cases hh
      exact h.cleanup_serves hp hc
    | _ => exact absurd (by simp [Quiet]) hquiet

/-! ## The machine with a clock -/

/-- The machine, the number of its steps, and the step in which each process was
blocked that is blocked on a message. -/
structure Served where
  machine : Traced
  clock : Nat
  since : Idx → Nat

instance : DecidablePred Blocked := fun _ => inferInstanceAs (Decidable (_ ∨ _))

/-- Who is not blocked before a step can only be blocked since this step. -/
def servedStep (im : Image) (e : Event) (s : Served) : Option Served := do
  let t ← tracedStep im e s.machine
  some ⟨t, s.clock + 1, fun i => if Blocked (s.machine.sys.kernel.state i) then s.since i else s.clock⟩

theorem servedStep_eq {s s' : Served} {e : Event} (ht : servedStep im e s = some s') :
    tracedStep im e s.machine = some s'.machine ∧ s'.clock = s.clock + 1 ∧
      s'.since = fun i => if Blocked (s.machine.sys.kernel.state i) then s.since i else s.clock := by
  obtain ⟨t, htraced, e'⟩ := Option.bind_eq_some_iff.1 ht
  cases e'
  exact ⟨htraced, rfl, rfl⟩

def ServedInit (im : Image) (s : Served) : Prop := TracedInit im s.machine

/-- The map finds every process, and nothing makes a process ready that is still on another list. -/
def Orderly (s : Served) (e : Event) : Prop := ExactMap s.machine.sys.kernel ∧ ReadiesUnlisted s.machine e

/-- The queues hold those that are blocked on a process, in the order in which they were blocked. -/
structure InOrder (s : Served) : Prop where
  senders : ∀ d, s.machine.sys.kernel.state d ≠ .STOPPED →
    ∀ i, i ∈ queues s.machine.sys.kernel (.senders d) ↔ SendsTo s.machine.sys.kernel s.machine.partner i d
  receivers : ∀ d, s.machine.sys.kernel.state d ≠ .STOPPED →
    ∀ i, i ∈ queues s.machine.sys.kernel (.receivers d) ↔ ReceivesOnly s.machine.sys.kernel s.machine.partner i d
  sorted : Sorted s.since (queues s.machine.sys.kernel)

/-- A step is a request, which serves the queues, or leaves them as they are. -/
def StepServes (im : Image) (s s' : Served) (e : Event) : Prop :=
  match trapped s.machine.sys e with
  | some (k, p, some r) => ∃ k' tr, handle_request im k p r = some (k', tr) ∧
      Serves s.since s.machine.partner k k' p r ∧ SameMessages (queues k') (queues s'.machine.sys.kernel)
  | _ => SameMessages (queues s.machine.sys.kernel) (queues s'.machine.sys.kernel)

/-! ## The invariant -/

structure ServedInv (s : Served) : Prop where
  traced : TracedInv s.machine
  sorted : Sorted s.since (queues s.machine.sys.kernel)
  past : ∀ i, Blocked (s.machine.sys.kernel.state i) → s.since i < s.clock

/-- Some leave a queue, or one that was not blocked joins it at its end. -/
def Advances (state : Idx → PState) (f f' : Queue → List Idx) : Prop :=
  ∀ q, q ≠ .ready → q ≠ .sleepers → (f' q).Sublist (f q) ∨ ∃ p, ¬Blocked (state p) ∧ f' q = f q ++ [p]

section Advances
variable {state : Idx → PState} {f' f'' : Queue → List Idx}

theorem SameMessages.advances (h : SameMessages f f') : Advances state f f' := by
  intro q hr hs
  rw [h q hr hs]
  exact .inl (List.Sublist.refl _)

theorem Advances.then_same (h : Advances state f f') (h' : SameMessages f' f'') : Advances state f f'' := by
  intro q hr hs
  rw [h' q hr hs]
  exact h q hr hs

/-- One queue advances. -/
theorem Advances.update {q : Queue} {is : List Idx} (h : is.Sublist (f q) ∨ ∃ p, ¬Blocked (state p) ∧ is = f q ++ [p]) :
    Advances state f (Function.update f q is) := by
  intro r _ _
  by_cases hrq : r = q
  · subst hrq
    rw [Function.update_self]
    exact h
  · rw [Function.update_of_ne hrq]
    exact .inl (List.Sublist.refl _)

theorem Serves.advances {r : Request} (h : Serves since partner k k' p r) (hp : ¬Blocked (k.state p)) :
    Advances k.state (queues k) (queues k') := by
  have hout {q : Queue} {i s r : Idx} (h : TakesOut k k' q p i s r) : Advances k.state (queues k) (queues k') :=
    (Advances.update (.inl List.erase_sublist)).then_same h.others
  have hnone {queue : Idx → Queue} {pid : Word} (h : TakesNone k k' p queue pid) :
      Advances k.state (queues k) (queues k') := by
    rcases h with hsame | ⟨d, -, hput⟩
    · exact hsame.advances
    · exact (Advances.update (.inr ⟨p, hp, rfl⟩)).then_same hput
  cases r with
  | SEND =>
    rcases h with ⟨d, -, -, htakes⟩ | ⟨-, h⟩
    · exact hout htakes
    · exact hnone h
  | RECV =>
    simp only [Serves] at h
    split at h
    · rcases h with ⟨i, -, -, htakes⟩ | ⟨-, hsame⟩
      · exact hout htakes
      · exact hsame.advances
    · rcases h with ⟨i, -, -, htakes⟩ | ⟨-, h⟩
      · exact hout htakes
      · exact hnone h
  | STOP =>
    intro q hr hs
    rw [h q hr hs]
    by_cases hqr : q = .receivers p
    · subst hqr
      rw [Function.update_self]
      exact .inl (List.nil_sublist _)
    · rw [Function.update_of_ne hqr]
      exact Advances.update (.inl (List.nil_sublist _)) q hr hs
  | _ => exact SameMessages.advances h

/-- Those on a queue are blocked, and keep the step in which they were; who
joins was not, and comes after them all. -/
theorem Sorted.advance {clock : Nat} (h : Sorted since f) (hadv : Advances state f f')
    (hblocked : ∀ q, q ≠ .ready → q ≠ .sleepers → ∀ i ∈ f q, Blocked (state i))
    (hpast : ∀ i, Blocked (state i) → since i < clock) :
    Sorted (fun i => if Blocked (state i) then since i else clock) f' := by
  intro q hr hs
  have hold : (f q).Pairwise fun i j =>
      (if Blocked (state i) then since i else clock) < if Blocked (state j) then since j else clock := by
    refine (h q hr hs).imp_of_mem fun {i j} hi hj hij => ?_
    rw [if_pos (hblocked q hr hs i hi), if_pos (hblocked q hr hs j hj)]
    exact hij
  rcases hadv q hr hs with hsub | ⟨p, hp, hput⟩
  · exact hold.sublist hsub
  · rw [hput]
    refine List.pairwise_append.2 ⟨hold, List.pairwise_singleton .., fun i hi j hj => ?_⟩
    obtain rfl := List.mem_singleton.1 hj
    have hi' := hblocked q hr hs i hi
    simp only [if_pos hi', if_neg hp]
    exact hpast i hi'

end Advances

/-- Who is on a queue of senders or receivers is blocked. -/
theorem Sound.queue_blocked {q : Queue} (h : Sound k partner f) (hr : q ≠ .ready) (hs : q ≠ .sleepers)
    (hi : i ∈ f q) : Blocked (k.state i) := by
  have hfit := h.queued.fits q i hi
  cases q with
  | ready => exact absurd rfl hr
  | sleepers => exact absurd rfl hs
  | senders d => exact .inl hfit.1
  | receivers d => exact .inr hfit.1

/-- Those that are blocked named their partners before. -/
theorem Serves.retarget {r : Request} {w : Option Word} (hp : k.state p = .RUNNING)
    (h : Serves since (Xeros.retarget partner p w) k k' p r) : Serves since partner k k' p r := by
  cases w with
  | none => exact h
  | some w =>
    have hsends : SendsTo k (Xeros.retarget partner p (some w)) = SendsTo k partner := by
      funext i d
      exact propext (SendsTo.retarget_iff hp w)
    have hreceives : ReceivesOnly k (Xeros.retarget partner p (some w)) = ReceivesOnly k partner := by
      funext d j
      refine propext (and_congr_right fun hd => ?_)
      have hdp : d ≠ p := ne_of_apply_ne k.state (by simp [hd, hp])
      rw [Xeros.retarget, Function.update_of_ne hdp]
    cases r with
    | SEND =>
      simp only [Serves, hreceives] at h ⊢
      exact h
    | RECV =>
      simp only [Serves, hsends] at h ⊢
      exact h
    | _ => exact h

/-- One turn of the dispatcher. -/
theorem Sound.turn_serves {r : Request} {s : Sys} (h : Sound k partner f) (hp : Runs k p) (hx : ExactMap k)
    (hsort : Sorted since f) (hok : RequestOk k partner p r) (hd : Xeros.dispatch_request im k p (some r) = some s) :
    ∃ k' tr, Xeros.handle_request im k p r = some (k', tr) ∧ Serves since partner k k' p r ∧
      SameMessages (queues k') (queues s.kernel) := by
  by_cases hr : r = .TIME_INT
  · subst hr
    cases hd
    exact ⟨k, none, rfl, .refl _, .refl _⟩
  rw [dispatch_request_eq im k p hr] at hd
  obtain ⟨⟨k', tr⟩, hh, hd⟩ := Option.bind_eq_some_iff.1 hd
  obtain ⟨⟨f', h', -⟩, htr⟩ := h.handled hp hok hh
  obtain ⟨⟨f'', h'', hsame⟩, -⟩ := h'.dispatch_next htr hd
  refine ⟨k', tr, hh, ?_, ?_⟩
  · have h1 := h.renamed hp (named k p r)
    refine Serves.retarget hp.1 (h1.serves hp hx hsort (hok.retarget hp.1 _) (fun w hw => ?_) hh)
    rw [hw]
    exact Function.update_self ..
  · rw [queues_eq h'.queued.lists, queues_eq h''.queued.lists]
    exact hsame

namespace ServedInv
variable {s s' : Served} {e : Event}

theorem step_serves (h : ServedInv s) (hok : Orderly s e) (ht : servedStep im e s = some s') :
    StepServes im s s' e := by
  unfold StepServes
  rcases tracedStep_cases (servedStep_eq ht).1 with
    ⟨g, rfl, e'⟩ | ⟨codes, k, t, rfl, hl, e'⟩ | ⟨k, p, r, sys, htr, hd, e'⟩
  · rw [e']
    exact .refl _
  · obtain ⟨f, hf⟩ := h.traced.sound
    obtain ⟨⟨f', hf', hsame⟩, -⟩ := hf.keyboard_lower hok.2 hl
    rw [e']
    change SameMessages (queues s.machine.sys.kernel) (queues k)
    rw [queues_eq hf.queued.lists, queues_eq hf'.queued.lists]
    exact hsame
  · obtain ⟨⟨f, hf⟩, hp⟩ := h.traced.at_trap htr
    obtain ⟨hlinks, hstate, hpid, hmap⟩ := trapped_frame htr
    have hq : queues k = queues s.machine.sys.kernel := by
      unfold queues
      rw [hlinks]
    have hx : ExactMap k := by
      unfold ExactMap pidMapLookup
      rw [hstate, hpid, hmap]
      exact hok.1
    rw [htr, e']
    cases r with
    | none =>
      have hnext : dispatch_next im k none = some sys := hd
      obtain ⟨⟨f', hf', hsame⟩, -⟩ := hf.dispatch_next (by rintro q ⟨⟩) hnext
      change SameMessages (queues s.machine.sys.kernel) (queues sys.kernel)
      rw [← hq, queues_eq hf.queued.lists, queues_eq hf'.queued.lists]
      exact hsame
    | some r =>
      have hsort : Sorted s.since f := by
        rw [← queues_eq hf.queued.lists, hq]
        exact h.sorted
      exact hf.turn_serves hp hx hsort (hok.2.request htr) hd

theorem step (h : ServedInv s) (hok : Orderly s e) (ht : servedStep im e s = some s') : ServedInv s' := by
  have hserves := h.step_serves hok ht
  obtain ⟨htraced, hclock, hsince⟩ := servedStep_eq ht
  obtain ⟨f, hf⟩ := h.traced.sound
  have hadv : Advances s.machine.sys.kernel.state (queues s.machine.sys.kernel) (queues s'.machine.sys.kernel) := by
    unfold StepServes at hserves
    split at hserves
    · next k p r htr =>
      obtain ⟨k', tr, -, hserve, hsame⟩ := hserves
      obtain ⟨-, hp⟩ := h.traced.at_trap htr
      obtain ⟨hlinks, hstate, -⟩ := trapped_frame htr
      have hq : queues k = queues s.machine.sys.kernel := by
        unfold queues
        rw [hlinks]
      rw [← hq, ← hstate]
      exact (hserve.advances (by rw [hp.1]; simp [Blocked])).then_same hsame
    · exact SameMessages.advances hserves
  refine ⟨h.traced.step hok.2 htraced, ?_, ?_⟩
  · rw [hsince]
    refine h.sorted.advance hadv (fun q hr hs i hi => ?_) h.past
    rw [queues_eq hf.queued.lists] at hi
    exact hf.queue_blocked hr hs hi
  · intro i _
    rw [hsince, hclock]
    simp only []
    split
    · next hi => exact Nat.lt_succ_of_lt (h.past i hi)
    · exact Nat.lt_succ_self _

theorem inOrder (h : ServedInv s) (hx : ExactMap s.machine.sys.kernel) : InOrder s := by
  obtain ⟨f, hf⟩ := h.traced.sound
  refine ⟨fun d hd i => ?_, fun d hd i => ?_, h.sorted⟩
  · rw [queues_eq hf.queued.lists]
    refine ⟨fun hi => ?_, hf.sender_mem hx hd⟩
    obtain ⟨hst, -, hpart⟩ := hf.queued.fits _ i hi
    exact ⟨hst, hpart⟩
  · rw [queues_eq hf.queued.lists]
    refine ⟨fun hi => ?_, fun hi => hf.receiver_mem hx hd hi.1 hi.2⟩
    obtain ⟨hst, -, -, hpart⟩ := hf.queued.fits _ i hi
    exact ⟨hst, hpart⟩

end ServedInv

/-! ## Results -/

/-- In every such run the queues hold those that are blocked, in the order in
which they were blocked, and every step serves them in this order. -/
theorem served_in_order {s : Served} (hs : Reach (servedStep im) (ServedInit im) Orderly s) :
    (ExactMap s.machine.sys.kernel → InOrder s) ∧
      ∀ e s', Orderly s e → servedStep im e s = some s' → StepServes im s s' e := by
  have h : ServedInv s := by
    refine hs.inv ServedInv ?_ fun _ _ _ h hok ht => h.step hok ht
    rintro s ⟨m, root, idleproc, hb⟩
    obtain ⟨htraced, hfree⟩ := TracedInv.boot hb
    obtain ⟨f, hf⟩ := htraced.sound
    refine ⟨htraced, fun q hr hs => ?_, fun i hi => absurd hi (hfree i)⟩
    rw [queues_eq hf.queued.lists]
    have hnil : f q = [] := List.eq_nil_iff_forall_not_mem.2 fun i hi => hfree i (hf.queue_blocked hr hs hi)
    rw [hnil]
    exact List.Pairwise.nil
  exact ⟨h.inOrder, fun e s' hok ht => h.step_serves hok ht⟩

/-- `initproc` has run. -/
def servedBoot : Served := ⟨tracedBoot, 0, fun _ => 0⟩

def orderlyEvent (s : Served) (e : Event) : Bool := decide (ExactMap s.machine.sys.kernel) && plainEvent s.machine e

theorem orderlyEvent_ok {s : Served} {e : Event} (h : orderlyEvent s e = true) : Orderly s e := by
  obtain ⟨hx, hplain⟩ := (Bool.and_eq_true ..).mp h
  exact ⟨of_decide_eq_true hx, plainEvent_ok hplain⟩

/-- Process 2 and then process 0 send to the idle process, which receives from any. -/
theorem served_in_order_2_senders : ∃ s s', queues s.machine.sys.kernel (.senders 1) = [2, 0] ∧
    queues s'.machine.sys.kernel (.senders 1) = [0] ∧ InOrder s ∧ StepServes sampleImage s s' (.syscall 0x11000) := by
  have h0 : Reach (servedStep sampleImage) (ServedInit sampleImage) Orderly servedBoot := .start tracedBoot_init
  obtain ⟨s, hs, ht⟩ := h0.exec_ok orderlyEvent (fun _ _ => orderlyEvent_ok)
    (call 0x10000 .CREATE [0x7000, 0x2000] ++ call 0x12000 .SEND [2] ++ call 0x10000 .SEND [2] ++
      (call 0x11000 .RECV [0x14000, 0x14100, 0]).take 1)
    (fun s : Served => orderlyEvent s (.syscall 0x11000) &&
      decide (queues s.machine.sys.kernel (.senders 1) = [2, 0]) &&
      (servedStep sampleImage (.syscall 0x11000) s).any fun s' : Served =>
        decide (queues s'.machine.sys.kernel (.senders 1) = [0])) (by decide +kernel)
  simp only [Bool.and_eq_true, Option.any_eq_true, decide_eq_true_eq] at ht
  obtain ⟨⟨hok, hbefore⟩, s', hstep, hafter⟩ := ht
  have hok' : Orderly s (.syscall 0x11000) := orderlyEvent_ok hok
  have hserved := served_in_order hs
  exact ⟨s, s', hbefore, hafter, hserved.1 hok'.1, hserved.2 _ _ hok' hstep⟩

/-- The map finds every process, and the requests are `CREATE`, `YIELD`, `STOP`, `SLEEP`, `SEND` and `RECV`. -/
def Talking (s : Served) (e : Event) : Prop := ExactMap s.machine.sys.kernel ∧ TalksOnly s.machine.sys e

def talking (s : Served) (e : Event) : Bool := decide (ExactMap s.machine.sys.kernel) && talksOnly s.machine.sys e

theorem talking_ok {s : Served} {e : Event} (h : talking s e = true) : Talking s e := by
  obtain ⟨hx, hto⟩ := (Bool.and_eq_true ..).mp h
  exact ⟨of_decide_eq_true hx, talksOnly_ok hto⟩

/-- Processes 2 and 3 receive from process 0, which receives from any. The cell
of process 2 reads 0 by now, and the idle process sends to it. Process 3 is on
no queue afterwards. -/
theorem served_cut : ¬∀ im s e s', Reach (servedStep im) (ServedInit im) Talking s → Talking s e →
    servedStep im e s = some s' → StepServes im s s' e := by
  intro hall
  have h0 : Reach (servedStep sampleImage) (ServedInit sampleImage) Talking servedBoot := .start tracedBoot_init
  obtain ⟨s, hs, ht⟩ := h0.exec_ok talking (fun _ _ => talking_ok)
    (call 0x10000 .CREATE [0x7000, 0x2000] ++ call 0x12000 .YIELD [] ++ call 0x10000 .CREATE [0x7000, 0x2000] ++
      .user (fun m => m.store32 0x14000 1) :: call 0x12000 .RECV [0x14000, 0x14100, 0] ++
      .user (fun m => m.store32 0x15000 1) :: call 0x13000 .RECV [0x15000, 0x15100, 0] ++
      call 0x10000 .RECV [0x16000, 0x16100, 0] ++
      .user (fun m => m.store32 0x14000 0) :: (call 0x11000 .SEND [3]).take 1)
    (fun s : Served => talking s (.syscall 0x11000) &&
      ((trapped s.machine.sys (.syscall 0x11000)).any fun x : Kernel × Idx × Option Request =>
        decide (x.2 = (1, some .SEND)) && decide (queues x.1 (.receivers 0) = [2, 3]) && decide (queues x.1 (.receivers 1) = [])) &&
      (servedStep sampleImage (.syscall 0x11000) s).any fun s' : Served =>
        decide (queues s'.machine.sys.kernel (.receivers 0) = [2])) (by decide +kernel)
  simp only [Bool.and_eq_true, Option.any_eq_true, decide_eq_true_eq] at ht
  obtain ⟨⟨hok, ⟨k, q, r⟩, htr, ⟨hr, hbefore⟩, hnobody⟩, s', hstep, hafter⟩ := ht
  cases hr
  have hserves := hall _ _ _ _ hs (talking_ok hok) hstep
  unfold StepServes at hserves
  rw [htr] at hserves
  obtain ⟨k', tr, -, hserve, hsame⟩ := hserves
  have hlost := hsame (.receivers 0) (by simp) (by simp)
  rw [hafter] at hlost
  rcases hserve with ⟨d, -, -, htakes⟩ | ⟨-, hkept | ⟨d, -, hput⟩⟩
  · have hmem := htakes.mem
    rw [hnobody] at hmem
    cases hmem
  · have hkept' := hkept (.receivers 0) (by simp) (by simp)
    rw [← hlost, hbefore] at hkept'
    cases hkept'
  · have hput' := hput (.receivers 0) (by simp) (by simp)
    rw [← hlost, Function.update_of_ne (by simp), hbefore] at hput'
    cases hput'

end Xeros
