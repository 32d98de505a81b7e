import Xeros.Procs.Sound
/-!
# What `send` and `receive` do

Each of them does one of three things: it fails at once, it meets a partner
that is blocked already, or it blocks. `send_cases` and `receive_cases` say
when, and where the processes are afterwards.
-/

namespace Xeros

open Links Kernel

variable {k k' : Kernel} {partner : Idx → Word} {f : Queue → List Idx} {p d : Idx}

/-- The from-pid cell of a process that is blocked in `recv`, as `send` reads it. -/
def from_cell (k : Kernel) (d : Idx) : Word := k.mem.load32 (k.arg d 0)

theorem arg_assign (k : Kernel) (l : PcbLink) (v : Option Idx) (p : Idx) (n : Nat) :
    (k.assign l v).arg p n = k.arg p n := by
  unfold arg
  rw [assign_iargs, assign_heap]

/-! ## A meeting -/

/-- `ready(p); ready(d)` of two processes on no list. -/
theorem Queued.ready_both {state : Idx → PState} {pid : Idx → Word} (h : Queued k.links state pid partner f)
    (hp : ∀ q, p ∉ f q) (hd : ∀ q, d ∉ f q) (hpd : p ≠ d) :
    ∃ k', (do let k ← Xeros.ready k p; Xeros.ready k d) = some k' ∧
      Queued k'.links (Function.update (Function.update state p .READY) d .READY) pid partner
        (Function.update f .ready (f .ready ++ [p, d])) ∧
      k' = { k with
        ready_queue := k'.ready_queue
        next := k'.next
        state := Function.update (Function.update k.state p .READY) d .READY } := by
  obtain ⟨k1, hr1, h1, -⟩ := h.ready hp
  have hd1 : ∀ q, d ∉ Function.update f .ready (f .ready ++ [p]) q := by
    intro q hq
    by_cases hqr : q = .ready
    · subst hqr
      rw [Function.update_self] at hq
      rcases List.mem_append.1 hq with hq | hq
      · exact hd .ready hq
      · exact hpd (List.mem_singleton.1 hq).symm
    · rw [Function.update_of_ne hqr] at hq
      exact hd q hq
  obtain ⟨k2, hr2, h2, -⟩ := h1.ready hd1
  refine ⟨k2, ?_, ?_, ?_⟩
  · rw [hr1, Option.bind_eq_bind, Option.bind_some, hr2]
  · rw [Function.update_self, Function.update_idem, List.append_assoc] at h2
    exact h2
  · have e1 := ready_eq hr1
    have e2 := ready_eq hr2
    rw [e2, e1]

/-- The sender and the receiver get the same count, and the cell the sender's pid. -/
structure Exchanged (k k' : Kernel) (sender receiver : Idx) : Prop where
  count : k'.irc sender = k'.irc receiver
  cell : k'.mem.load32 (k.arg receiver 0) = k.pid sender

theorem exchanged_transfer (k : Kernel) {s r : Idx} (hsr : r ≠ s) : Exchanged k (send_receive_transfer k s r) s r := by
  refine ⟨?_, Mem.load32_store32 ..⟩
  refine (Function.update_self ..).trans (Eq.symm ?_)
  refine (Function.update_of_ne hsr ..).trans (Function.update_self ..)

/-- The kernel is as a transfer left it. -/
theorem Exchanged.of_transfer {k0 : Kernel} {s r : Idx} (hsr : r ≠ s) (hirc : k'.irc = (send_receive_transfer k0 s r).irc)
    (hmem : k'.mem = (send_receive_transfer k0 s r).mem) (harg : k0.arg r 0 = k.arg r 0) (hpid : k0.pid = k.pid) :
    Exchanged k k' s r := by
  have hex := exchanged_transfer k0 hsr
  constructor
  · rw [hirc]
    exact hex.count
  · rw [hmem, ← harg]
    exact hex.cell.trans (congrFun hpid s)

/-- The caller `p` and `d` have met: both are off their lists, and ready. -/
structure Met (k k' : Kernel) (partner : Idx → Word) (f : Queue → List Idx) (p d : Idx) : Prop where
  sound : ∃ f', Sound k' partner f' ∧ f' .ready = f .ready ++ [p, d]
  state : k'.state = Function.update (Function.update k.state p .READY) d .READY
  pid : k'.pid = k.pid

/-- A process that is blocked is made ready together with the caller, once it is off its list. -/
theorem Sound.meet (h : Sound k partner f) (hp : k.state p = .RUNNING) (hd : Blocked (k.state d)) {k1 : Kernel}
    {q : Queue} {xs : List Idx}
    (hq : Queued k1.links (Function.update k.state d .RUNNING) k.pid partner (Function.update f q xs))
    (hqr : q ≠ .ready) (hpx : p ∉ xs) (hk : k1.state = k.state ∧ k1.pid = k.pid ∧ k1.pidMap = k.pidMap) :
    ∃ k', (do let k ← Xeros.ready k1 p; Xeros.ready k d) = some k' ∧ Met k k' partner f p d ∧ k'.irc = k1.irc ∧
      k'.mem = k1.mem ∧ Family k'.links (Function.update (Function.update f q xs) .ready (f .ready ++ [p, d])) := by
  have hpd : p ≠ d := by
    rintro rfl
    simp [hp, Blocked] at hd
  have hp1 : ∀ r, p ∉ Function.update f q xs r := by
    intro r
    by_cases hr : r = q
    · subst hr
      rwa [Function.update_self]
    · rw [Function.update_of_ne hr]
      exact h.running hp r
  have hd1 : ∀ r, d ∉ Function.update f q xs r := hq.unlisted (by rw [Function.update_self]; exact id)
  obtain ⟨k', hr, h', e⟩ := hq.ready_both hp1 hd1 hpd
  obtain ⟨hst, hpid, hmap⟩ := hk
  have hstate : k'.state = Function.update (Function.update k.state p .READY) d .READY := by rw [e, hst]
  have hpid' : k'.pid = k.pid := by rw [e, hpid]
  have hmap' : k'.pidMap = k.pidMap := by rw [e, hmap]
  set f1 := Function.update f q xs with hf1
  have hready : f1 .ready = f .ready := by rw [hf1, Function.update_of_ne hqr.symm]
  have hl' : Family k'.links (Function.update f1 .ready (f .ready ++ [p, d])) := hready ▸ h'.lists
  refine ⟨k', hr, ⟨⟨Function.update f1 .ready (f1 .ready ++ [p, d]), ⟨?_, ?_⟩, ?_⟩, hstate, hpid'⟩, ?_, ?_, hl'⟩
  · rw [hstate, hpid']
    rw [Function.update_comm hpd.symm, Function.update_idem] at h'
    exact h'
  · rw [hstate, hpid', hmap']
    refine (h.map.update (by rw [hp]; simp) (by simp)).update ?_ (by simp)
    rw [Function.update_of_ne hpd.symm]
    rcases hd with hd | hd
    · simp [hd]
    · simp [hd]
  · rw [Function.update_self, hready]
  · rw [e]
  · rw [e]

/-- The same for a process that is still on a queue and is taken off it. -/
theorem Sound.meet_queued (h : Sound k partner f) (hp : k.state p = .RUNNING) {q : Queue} {xs ys : List Idx}
    (hsplit : f q = xs ++ d :: ys) (hd : Blocked (k.state d)) {k1 : Kernel}
    (hl : Family k1.links (Function.update f q (xs ++ ys)))
    (hk : k1.state = k.state ∧ k1.pid = k.pid ∧ k1.pidMap = k.pidMap) :
    ∃ k', (do let k ← Xeros.ready k1 p; Xeros.ready k d) = some k' ∧ Met k k' partner f p d ∧ k'.irc = k1.irc ∧
      k'.mem = k1.mem ∧
      Family k'.links (Function.update (Function.update f q ((f q).erase d)) .ready (f .ready ++ [p, d])) := by
  have hqr : q ≠ .ready := by
    rintro rfl
    have hready : k.state d = .READY := h.queued.fits .ready d (by rw [hsplit]; simp)
    rw [hready] at hd
    simp [Blocked] at hd
  have hpx : p ∉ xs ++ ys := by
    intro hm
    apply h.running hp q
    rw [hsplit]
    rcases List.mem_append.1 hm with hm | hm
    · exact List.mem_append_left _ hm
    · exact List.mem_append_right _ (List.mem_cons_of_mem _ hm)
  have hq : Queued k1.links (Function.update k.state d .RUNNING) k.pid partner (Function.update f q (xs ++ ys)) :=
    h.queued.take hsplit hl
  have hdx : d ∉ xs := by
    have hnd := h.queued.lists.nodup q
    rw [hsplit] at hnd
    exact fun hm => (List.disjoint_of_nodup_append hnd hm) List.mem_cons_self
  rw [hsplit, List.erase_append_right _ hdx, List.erase_cons_head]
  exact h.meet hp hd hq hqr hpx hk

/-! ## `send` -/

/-- The caller is made ready at once, with an error code. -/
structure Refused (k k' : Kernel) (partner : Idx → Word) (p : Idx) : Prop where
  sound : ∃ f', Sound k' partner f'
  state : k'.state = Function.update k.state p .READY
  pid : k'.pid = k.pid

theorem Sound.refuse (h : Sound k partner f) (hp : k.state p = .RUNNING) (rc : Word) :
    ∃ k', Xeros.ready { k with irc := Function.update k.irc p rc } p = some k' ∧ Refused k k' partner p ∧
      Family k'.links (Function.update f .ready (f .ready ++ [p])) := by
  set k1 : Kernel := { k with irc := Function.update k.irc p rc } with hk1
  have h1 : Sound k1 partner f := ⟨h.queued, h.map⟩
  obtain ⟨k', hr, h'⟩ := h1.ready (h1.running hp) (by rw [hk1]; simp [hp])
  exact ⟨k', hr, ⟨⟨_, h'⟩, by rw [ready_eq hr], by rw [ready_eq hr]⟩, h'.queued.lists⟩

/-- The caller is blocked on list `q` in state `st`. -/
structure Waits (k k' : Kernel) (partner : Idx → Word) (p : Idx) (st : PState) : Prop where
  sound : ∃ f', Sound k' partner f'
  state : k'.state = Function.update k.state p st
  pid : k'.pid = k.pid
  mem : k'.mem = k.mem

theorem Sound.wait (h : Sound k partner f) (hp : Runs k p) {q : Queue} {st : PState} (hst : st ≠ .STOPPED)
    (hfit : Fits (Function.update k.state p st) k.pid partner p q) :
    ∃ k', queue_insert k q p st = some k' ∧ Waits k k' partner p st ∧
      Family k'.links (Function.update f q (f q ++ [p])) := by
  have hun := h.running hp.1
  obtain ⟨k', hi, e, hl⟩ := queue_insert_spec h.queued.lists hun hp.2 q st
  have hstate : k'.state = Function.update k.state p st := by rw [e]
  have hpid : k'.pid = k.pid := by
    rw [e]
    exact assign_pid ..
  have hmap : k'.pidMap = k.pidMap := by
    rw [e]
    exact assign_pidMap ..
  have hheap : k'.toHeap = k.toHeap := by
    rw [e]
    exact assign_heap ..
  refine ⟨k', hi, ⟨⟨Function.update f q (f q ++ [p]), ?_, ?_⟩, hstate, hpid, congrArg (·.mem) hheap⟩, hl⟩
  · rw [hstate, hpid]
    exact h.queued.put hun (List.append_nil _).symm hl hfit
  · rw [hstate, hpid, hmap]
    exact h.map.update (by rw [hp.1]; simp) hst

/-- The destination is found on the caller's queue of receivers. -/
theorem send_queued {dest v : Word} {k1 : Kernel} (hself : ¬k.pid p = dest) (hl : pidMapLookup k dest = some v)
    (hrem : queue_remove k (.receivers p) dest = some (some d, k1)) :
    send k p dest = (do let k ← Xeros.ready (send_receive_transfer k1 p d) p; Xeros.ready k d) := by
  rw [send, if_neg hself, hl]
  simp only []
  rw [recv_queue_remove, hrem, Option.bind_eq_bind, Option.bind_some]

/-- The destination receives from any, or the caller waits for it. -/
theorem send_unqueued {dest : Word} (hself : ¬k.pid p = dest) (hl : pidMapLookup k dest = some (pcbIndex d))
    (hrem : queue_remove k (.receivers p) dest = some (none, k)) :
    send k p dest = if k.state d = .RECEIVING ∧ from_cell k d = 0 then
      (do let k ← Xeros.ready (send_receive_transfer k p d) p; Xeros.ready k d)
    else send_queue_insert k d p := by
  rw [send, if_neg hself, hl]
  simp only []
  rw [recv_queue_remove, hrem, Option.bind_eq_bind, Option.bind_some]
  simp only []
  rw [pcbAt_pcbIndex, Option.bind_eq_bind, Option.bind_some]
  rfl

/-- What `send` does, in three cases, and the lists after it. -/
theorem send_cases {dest : Word} (h : Sound k partner f) (hp : Runs k p) (hdest : partner p = dest)
    (hcell : ∀ d, pidMapLookup k dest = some (pcbIndex d) → k.state d = .RECEIVING → from_cell k d = 0 →
      (∀ j ∈ f (.receivers p), k.pid j ≠ dest) → partner d = 0) :
    ∃ k', send k p dest = some k' ∧
      -- Nobody has the pid, or it is the caller's own.
      (((k.pid p = dest ∨ pidMapLookup k dest = none) ∧ Refused k k' partner p ∧
        Family k'.links (Function.update f .ready (f .ready ++ [p]))) ∨
      -- The destination is blocked receiving from the caller or from any.
      (∃ d, k.state d = .RECEIVING ∧ k.pid d = dest ∧ (d ∈ f (.receivers p) ∨ partner d = 0) ∧
        Met k k' partner f p d ∧ Exchanged k k' p d ∧ Family k'.links
          (Function.update (Function.update f (.receivers p) ((f (.receivers p)).erase d)) .ready (f .ready ++ [p, d]))) ∨
      -- The caller blocks.
      (∃ d, pidMapLookup k dest = some (pcbIndex d) ∧ k.pid d = dest ∧ (∀ j ∈ f (.receivers p), k.pid j ≠ dest) ∧
        ¬(k.state d = .RECEIVING ∧ from_cell k d = 0) ∧ Waits k k' partner p .SENDING ∧
        Family k'.links (Function.update f (.senders d) (f (.senders d) ++ [p])))) := by
  have hrun := hp.1
  by_cases hself : k.pid p = dest
  · obtain ⟨k', hr, h'⟩ := h.refuse hrun SYS_SR_SELF
    refine ⟨k', ?_, .inl ⟨.inl hself, h'⟩⟩
    rw [send, if_pos hself, hr]
  cases hl : pidMapLookup k dest with
  | none =>
    obtain ⟨k', hr, h'⟩ := h.refuse hrun SYS_SR_NO_PID
    refine ⟨k', ?_, .inl ⟨.inr rfl, h'⟩⟩
    rw [send, if_neg hself, hl]
    exact hr
  | some v =>
    obtain ⟨d, hlive, hpid, rfl⟩ := h.map.lookup hl
    rcases queue_remove_spec h.queued.lists (.receivers p) dest with
      ⟨hnone, hrem⟩ | ⟨xs, i, ys, hsplit, -, hi, hrem, hl1⟩
    · by_cases hany : k.state d = .RECEIVING ∧ from_cell k d = 0
      · -- the destination receives from any
        have h0 := hcell d hl hany.1 hany.2 hnone
        have hpd : d ≠ p := ne_of_apply_ne k.state (by simp [hany.1, hrun])
        have hd : ∀ q, d ∉ f q := h.queued.unlisted (by rw [hany.1]; exact fun hne => hne h0)
        set k1 := send_receive_transfer k p d with hk1
        have hq : Queued k1.links (Function.update k.state d .RUNNING) k.pid partner
            (Function.update f (.receivers p) (f (.receivers p))) := by
          rw [Function.update_eq_self]
          exact h.queued.rest hd id (by rintro ⟨⟩)
        obtain ⟨k', hr, hmet, hirc, hmem, hl'⟩ := h.meet hrun (.inr hany.1) hq (by simp) (h.running hrun _)
          ⟨rfl, rfl, rfl⟩
        rw [← List.erase_of_not_mem (hd (.receivers p))] at hl'
        have hex : Exchanged k k' p d := .of_transfer hpd hirc hmem rfl rfl
        refine ⟨k', ?_, .inr (.inl ⟨d, hany.1, hpid, .inr h0, hmet, hex, hl'⟩)⟩
        rw [send_unqueued hself hl hrem, if_pos hany]
        exact hr
      · have hfit : Fits (Function.update k.state p .SENDING) k.pid partner p (.senders d) := by
          refine ⟨Function.update_self .., ?_, by rw [hdest, hpid]⟩
          rw [Function.update_apply]
          split
          · simp
          · exact hlive
        obtain ⟨k', hi, hw⟩ := h.wait hp (by simp) hfit
        refine ⟨k', ?_, .inr (.inr ⟨d, rfl, hpid, hnone, hany, hw.1, hw.2⟩)⟩
        rw [send_unqueued hself hl hrem, if_neg hany]
        exact hi
    · -- the destination receives from the caller
      have hmem : i ∈ f (.receivers p) := by
        rw [hsplit]
        exact List.mem_append_right _ List.mem_cons_self
      have hrecv : k.state i = .RECEIVING := (h.queued.fits _ i hmem).1
      have hpi : i ≠ p := ne_of_apply_ne k.state (by simp [hrecv, hrun])
      set k0 := k.assign (tail (.head (.receivers p)) xs) (k.next i) with hk0
      set k1 := send_receive_transfer k0 p i with hk1
      have hl1' : Family k1.links (Function.update f (.receivers p) (xs ++ ys)) := hl1
      obtain ⟨k', hr, hmet, hirc, hmem', hl'⟩ := h.meet_queued hrun hsplit (.inr hrecv) hl1'
        ⟨assign_state .., assign_pid .., assign_pidMap ..⟩
      have hex : Exchanged k k' p i := .of_transfer hpi hirc hmem' (arg_assign ..) (assign_pid ..)
      refine ⟨k', ?_, .inr (.inl ⟨i, hrecv, hi, .inl hmem, hmet, hex, hl'⟩)⟩
      rw [send_queued hself hl hrem]
      exact hr

/-! ## `receive` -/

/-- A receiver from any is on no list. -/
theorem Sound.wait_any (h : Sound k partner f) (hp : k.state p = .RUNNING) (h0 : partner p = 0) :
    Waits k { k with state := Function.update k.state p .RECEIVING } partner p .RECEIVING := by
  refine ⟨⟨f, ?_, h.map.update (by rw [hp]; simp) (by simp)⟩, rfl, rfl, rfl⟩
  exact h.queued.rest (h.running hp) (fun hne => hne h0) (by rintro ⟨⟩)

/-- Who is on a list of senders is blocked sending, and is not the running process. -/
theorem Sound.sender (h : Sound k partner f) (hp : k.state p = .RUNNING) {i : Idx} (hi : i ∈ f (.senders p)) :
    k.state i = .SENDING ∧ p ≠ i := by
  have hsend : k.state i = .SENDING := (h.queued.fits _ i hi).1
  exact ⟨hsend, ne_of_apply_ne k.state (by simp [hp, hsend])⟩

/-- The source is found on the caller's queue of senders. -/
theorem receive_queued {a v : Word} {k1 : Kernel} (hself : ¬k.pid p = k.mem.load32 a) (hany : ¬k.mem.load32 a = 0)
    (hl : pidMapLookup k (k.mem.load32 a) = some v)
    (hrem : queue_remove k (.senders p) (k.mem.load32 a) = some (some d, k1)) :
    receive k p a = (do let k ← Xeros.ready (send_receive_transfer k1 d p) p; Xeros.ready k d) := by
  rw [receive, if_neg hself, if_neg hany, hl]
  simp only []
  rw [send_queue_remove, hrem, Option.bind_eq_bind, Option.bind_some]

/-- The caller waits for the source. -/
theorem receive_unqueued {a : Word} (hself : ¬k.pid p = k.mem.load32 a) (hany : ¬k.mem.load32 a = 0)
    (hl : pidMapLookup k (k.mem.load32 a) = some (pcbIndex d))
    (hrem : queue_remove k (.senders p) (k.mem.load32 a) = some (none, k)) :
    receive k p a = recv_queue_insert k d p := by
  rw [receive, if_neg hself, if_neg hany, hl]
  simp only []
  rw [send_queue_remove, hrem, Option.bind_eq_bind, Option.bind_some]
  simp only []
  rw [pcbAt_pcbIndex, Option.bind_eq_bind, Option.bind_some]

/-- What `receive` does, in three cases, and the lists after it. -/
theorem receive_cases {a : Word} (h : Sound k partner f) (hp : Runs k p) (hsrc : partner p = k.mem.load32 a) :
    ∃ k', receive k p a = some k' ∧
      -- Nobody has the pid, or it is the caller's own.
      (((k.pid p = partner p ∨ partner p ≠ 0 ∧ pidMapLookup k (partner p) = none) ∧ Refused k k' partner p ∧
        Family k'.links (Function.update f .ready (f .ready ++ [p]))) ∨
      -- A sender to the caller is taken off its queue.
      (∃ d ∈ f (.senders p), (partner p = 0 ∨ k.pid d = partner p) ∧ (partner p = 0 → (f (.senders p)).head? = some d) ∧
        Met k k' partner f p d ∧ Exchanged k k' d p ∧ Family k'.links
          (Function.update (Function.update f (.senders p) ((f (.senders p)).erase d)) .ready (f .ready ++ [p, d]))) ∨
      -- The caller blocks.
      ((partner p = 0 → f (.senders p) = []) ∧ (∀ j ∈ f (.senders p), k.pid j ≠ partner p) ∧
        Waits k k' partner p .RECEIVING ∧ (partner p = 0 ∧ Family k'.links f ∨ partner p ≠ 0 ∧
          ∃ d, k.pid d = partner p ∧ Family k'.links (Function.update f (.receivers d) (f (.receivers d) ++ [p]))))) := by
  have hrun := hp.1
  by_cases hself : k.pid p = partner p
  · obtain ⟨k', hr, h'⟩ := h.refuse hrun SYS_SR_SELF
    refine ⟨k', ?_, .inl ⟨.inl hself, h'⟩⟩
    rw [receive, ← hsrc, if_pos hself, hr]
  by_cases hany : partner p = 0
  · have hc := h.queued.lists.chain (.senders p)
    cases hf : f (.senders p) with
    | nil =>
      rw [hf] at hc
      have hs : k.senders p = none := hc
      refine ⟨_, ?_, .inr (.inr ⟨fun _ => rfl, by simp, h.wait_any hrun hany, .inl ⟨hany, h.queued.lists⟩⟩)⟩
      rw [receive, ← hsrc, if_neg hself, if_pos hany, hs]
    | cons i is =>
      rw [hf] at hc
      have hs : k.senders p = some i := hc.1
      have hsplit : f (.senders p) = [] ++ i :: is := hf
      set k1 : Kernel := { send_receive_transfer k i p with senders := Function.update k.senders p (k.next i) } with hk1
      have hlinks : k1.links = Function.update k.links (.head (.senders p)) (k.next i) :=
        links_assign k (.head (.senders p)) (k.next i)
      have hl : Family k1.links (Function.update f (.senders p) ([] ++ is)) := hlinks ▸ h.queued.lists.remove hsplit
      obtain ⟨hsend, hpi⟩ := h.sender hrun (i := i) (by rw [hf]; exact List.mem_cons_self)
      obtain ⟨k', hr, hmet, hirc, hmem, hl'⟩ := h.meet_queued hrun hsplit (.inl hsend) hl ⟨rfl, rfl, rfl⟩
      rw [hf] at hl'
      have hex : Exchanged k k' i p := .of_transfer hpi hirc hmem rfl rfl
      refine ⟨k', ?_, .inr (.inl ⟨i, List.mem_cons_self, .inl hany, fun _ => rfl, hmet, hex, hl'⟩)⟩
      rw [receive, ← hsrc, if_neg hself, if_pos hany, hs]
      exact hr
  cases hl : pidMapLookup k (partner p) with
  | none =>
    obtain ⟨k', hr, h'⟩ := h.refuse hrun SYS_SR_NO_PID
    refine ⟨k', ?_, .inl ⟨.inr ⟨hany, rfl⟩, h'⟩⟩
    rw [receive, ← hsrc, if_neg hself, if_neg hany, hl]
    exact hr
  | some v =>
    obtain ⟨d, hlive, hpid, rfl⟩ := h.map.lookup hl
    rcases queue_remove_spec h.queued.lists (.senders p) (partner p) with
      ⟨hnone, hrem⟩ | ⟨xs, i, ys, hsplit, -, hi, hrem, hl1⟩
    · have hfit : Fits (Function.update k.state p .RECEIVING) k.pid partner p (.receivers d) := by
        refine ⟨Function.update_self .., hany, ?_, hpid.symm⟩
        rw [Function.update_apply]
        split
        · simp
        · exact hlive
      obtain ⟨k', hi, hw⟩ := h.wait hp (by simp) hfit
      refine ⟨k', ?_, .inr (.inr ⟨fun h0 => absurd h0 hany, hnone, hw.1, .inr ⟨hany, d, hpid, hw.2⟩⟩)⟩
      rw [hsrc] at hself hany hl hrem
      rw [receive_unqueued hself hany hl hrem]
      exact hi
    · set k0 := k.assign (tail (.head (.senders p)) xs) (k.next i) with hk0
      set k1 := send_receive_transfer k0 i p with hk1
      have hl1' : Family k1.links (Function.update f (.senders p) (xs ++ ys)) := hl1
      have hmem : i ∈ f (.senders p) := by
        rw [hsplit]
        exact List.mem_append_right _ List.mem_cons_self
      obtain ⟨hsend, hpi⟩ := h.sender hrun hmem
      obtain ⟨k', hr, hmet, hirc, hmem', hl'⟩ := h.meet_queued hrun hsplit (.inl hsend) hl1'
        ⟨assign_state .., assign_pid .., assign_pidMap ..⟩
      have hex : Exchanged k k' i p := .of_transfer hpi hirc hmem' (arg_assign ..) (assign_pid ..)
      refine ⟨k', ?_, .inr (.inl ⟨i, hmem, .inr hi, fun h0 => absurd h0 hany, hmet, hex, hl'⟩)⟩
      rw [hsrc] at hself hany hl hrem
      rw [receive_queued hself hany hl hrem]
      exact hr

end Xeros
