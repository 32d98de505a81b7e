import Xeros.Procs.Calls
/-!
# The end of a process

`cleanup` readies everybody who waits for the process, closes its devices,
frees its stack and takes its pid out of the map. Nothing happens to any other
process, except that the ready queue goes on behind its last one
(`cleanup_frame`).
-/

namespace Xeros

open Links Kernel

variable {k k' : Kernel} {f : Queue → List Idx} {p : Idx} {q : Queue}

/-! ## Links -/

/-- `ready` writes the link behind the ready queue and that of the process. -/
theorem ready_next (h : Family k.links f) (hp : ∀ q, p ∉ f q) (hr : ready k p = some k') {i : Idx} (hip : i ≠ p)
    (hlast : (f .ready).getLast? ≠ some i) : k'.next i = k.next i := by
  obtain ⟨k1, hr1, hlinks, -⟩ := ready_spec h hp
  cases Option.some.inj (hr1.symm.trans hr)
  have hne : (Link.next i : PcbLink) ≠ .next p := by
    rintro ⟨⟩
    exact hip rfl
  have htail : (Link.next i : PcbLink) ≠ tail (.head .ready) (f .ready) := fun e => hlast (tail_head_eq_next.1 e.symm)
  change k'.links (.next i) = k.links (.next i)
  rw [hlinks, Function.update_of_ne hne, Function.update_of_ne htail]

/-- A drain writes the links of those it readies and the one behind the ready queue. -/
theorem drain_next (h : Family k.links f) (hq : q ≠ .ready) {n : Nat} (hd : drain q n k = some k') {i : Idx}
    (hi : i ∉ f q) (hlast : (f .ready).getLast? ≠ some i) : k'.next i = k.next i := by
  induction n generalizing k f with
  | zero => cases hd
  | succ n ih =>
    have hc := h.chain q
    rw [drain] at hd
    cases hf : f q with
    | nil =>
      rw [hf] at hc
      have hnone : k.links (.head q) = none := hc
      rw [hnone] at hd
      cases hd
      rfl
    | cons j js =>
      rw [hf] at hc hi
      obtain ⟨hij, hijs⟩ := not_or.1 (mt List.mem_cons.2 hi)
      rw [hc.1] at hd
      obtain ⟨k2, hr, hd⟩ := Option.bind_eq_some_iff.1 hd
      set ka := k.assign (.head q) (k.next j) with hka
      set k1 : Kernel := { ka with irc := Function.update ka.irc j SYS_SR_NO_PID } with hk1
      have e1 : k1.links = Function.update k.links (.head q) (k.next j) := links_assign k (.head q) (k.next j)
      obtain ⟨k2', hr', hf2⟩ := ready_head h hq hf e1
      cases Option.some.inj (hr'.symm.trans hr)
      have hsplit : f q = [] ++ j :: js := hf
      have h1 : Family k1.links (Function.update f q js) := e1 ▸ h.remove hsplit
      have hstep : k2.next i = k1.next i :=
        ready_next h1 (h.not_mem_remove hsplit) hr hij (by rwa [Function.update_of_ne hq.symm])
      have hnext : k1.next i = k.next i := by
        rw [hk1, hka]
        cases q <;> rfl
      rw [ih hf2 hd (by rwa [wake_self hq]) (by rw [wake_ready]; simpa using Ne.symm hij), hstep, hnext]

/-! ## Devices -/

/-- The driver agrees, and the slot is free. -/
theorem di_close_opened {k : Kernel} {fd : Fin NUM_FD} (h : (k.opened_dv p fd).isSome) :
    (di_close keyboards k p (BitVec.ofNat 32 fd)).2.opened_dv =
      Function.update k.opened_dv p (Function.update (k.opened_dv p) fd none) := by
  obtain ⟨d, hd⟩ := Option.isSome_iff_exists.1 h
  unfold di_close
  rw [opened_ofNat hd]
  simp only [dvclose_eq]
  rfl

/-- No descriptor stays open. -/
theorem close_all_opened (k : Kernel) (p : Idx) :
    (close_all keyboards k p).opened_dv = Function.update k.opened_dv p fun _ => none := by
  -- after the slots `fds`, these are free and the others as before
  have hfold (fds : List (Fin NUM_FD)) (k : Kernel) :
      (fds.foldl (fun k fd =>
        if (k.opened_dv p fd).isSome then (di_close keyboards k p (BitVec.ofNat 32 fd)).2 else k) k).opened_dv =
      Function.update k.opened_dv p fun fd => if fd ∈ fds then none else k.opened_dv p fd := by
    induction fds generalizing k with
    | nil => simp
    | cons fd fds ih =>
      rw [List.foldl_cons, ih]
      by_cases ho : (k.opened_dv p fd).isSome
      · rw [if_pos ho, di_close_opened ho, Function.update_idem]
        congr 1
        funext fd'
        by_cases hfd : fd' = fd <;> simp [hfd]
      · rw [if_neg ho]
        congr 1
        funext fd'
        by_cases hfd : fd' = fd
        · subst hfd
          have hnone : k.opened_dv p fd' = none := by simpa using ho
          rw [hnone, ite_self, ite_self]
        · simp [hfd]
  rw [close_all, hfold]
  congr 1
  funext fd
  exact if_pos (List.mem_finRange fd)

/-! ## The lists -/

/-- The lists after `p` is gone. -/
def cleaned (f : Queue → List Idx) (p : Idx) : Queue → List Idx :=
  wake (wake f (.senders p) (f (.senders p)) []) (.receivers p) (f (.receivers p)) []

section cleaned

/-- Those who waited to send come first. -/
theorem cleaned_ready : cleaned f p .ready = f .ready ++ f (.senders p) ++ f (.receivers p) := by
  rw [cleaned, wake_ready, wake_ready]

theorem cleaned_senders : cleaned f p (.senders p) = [] := by
  rw [cleaned, wake_of_ne (by simp) (by simp), wake_self (by simp)]

theorem cleaned_receivers : cleaned f p (.receivers p) = [] := by
  rw [cleaned, wake_self (by simp)]

/-- No process comes onto a list. -/
theorem not_mem_cleaned (hp : ∀ q, p ∉ f q) (q : Queue) : p ∉ cleaned f p q := by
  intro hm
  have hrecv : wake f (.senders p) (f (.senders p)) [] (.receivers p) = f (.receivers p) ++ [] := by
    rw [wake_of_ne (by simp) (by simp), List.append_nil]
  obtain ⟨r, hm⟩ := mem_wake hrecv hm
  obtain ⟨r, hm⟩ := mem_wake (List.append_nil _).symm hm
  exact hp r hm

theorem cleaned_other (hr : q ≠ .ready) (hs : q ≠ .senders p) (hv : q ≠ .receivers p) : cleaned f p q = f q := by
  rw [cleaned, wake_of_ne hr hv, wake_of_ne hr hs]

end cleaned

/-- Those who wait for `p` are readied with a return value; everything but the lists is known. -/
theorem drain_both (h : Family k.links f) (p : Idx) :
    ∃ k1 k2, drain (.senders p) DRAIN_FUEL k = some k1 ∧ drain (.receivers p) DRAIN_FUEL k1 = some k2 ∧
      Family k2.links (cleaned f p) ∧
      k2 = { k with
        ready_queue := k2.ready_queue
        sleep_list := k2.sleep_list
        senders := k2.senders
        receivers := k2.receivers
        next := k2.next
        irc := setAll k.irc (f (.senders p) ++ f (.receivers p)) SYS_SR_NO_PID
        state := setAll k.state (f (.senders p) ++ f (.receivers p)) .READY } ∧
      ∀ i, i ∉ f (.senders p) ++ f (.receivers p) → (f .ready).getLast? ≠ some i → k2.next i = k.next i := by
  have hlen {f : Queue → List Idx} {k : Kernel} (h : Family k.links f) (q : Queue) : (f q).length < DRAIN_FUEL := by
    have hl := h.length_le q
    rw [Fintype.card_fin] at hl
    exact Nat.lt_of_le_of_lt hl (by decide)
  obtain ⟨k1, hd1, h1, e1⟩ := drain_spec h (q := .senders p) (by simp) (hlen h _)
  obtain ⟨k2, hd2, h2, e2⟩ := drain_spec h1 (q := .receivers p) (by simp) (hlen h1 _)
  have hrecv : wake f (.senders p) (f (.senders p)) [] (.receivers p) = f (.receivers p) :=
    wake_of_ne (by simp) (by simp)
  rw [hrecv] at h2 e2
  refine ⟨k1, k2, hd1, hd2, h2, ?_, fun i hi hlast => ?_⟩
  · rw [e2, e1]
    simp only [setAll_append]
  · simp only [List.mem_append, not_or] at hi
    have hlast1 : (wake f (.senders p) (f (.senders p)) [] .ready).getLast? ≠ some i := by
      rw [wake_ready]
      intro e
      rcases List.eq_nil_or_concat (f (.senders p)) with e' | ⟨js, j, e'⟩
      · rw [e', List.append_nil] at e
        exact hlast e
      · rw [e'] at e hi
        simp at e hi
        exact hi.1.2 e.symm
    rw [drain_next h1 (by simp) hd2 (by rw [hrecv]; exact hi.2) hlast1, drain_next h (by simp) hd1 hi.1 hlast]

/-! ## Result -/

/-- The fields of a PCB but `next`. -/
structure Pcb where
  pid : Word
  parentPid : Word
  state : PState
  senders : Option Idx
  receivers : Option Idx
  esp : Word
  stack : Word
  irc : Word
  iargs : Word
  delta : Word
  sig_handler : Fin NUM_SIGNAL → Word
  pending_sig : Word
  allowed_sig : Word
  hi_sig : Word
  opened_dv : Fin NUM_FD → Option Device

/-- `pcbTable[i]` without its link. -/
def pcbOf (k : Kernel) (i : Idx) : Pcb :=
  { pid := k.pid i, parentPid := k.parentPid i, state := k.state i, senders := k.senders i, receivers := k.receivers i
    esp := k.esp i, stack := k.stack i, irc := k.irc i, iargs := k.iargs i, delta := k.delta i
    sig_handler := k.sig_handler i, pending_sig := k.pending_sig i, allowed_sig := k.allowed_sig i
    hi_sig := k.hi_sig i, opened_dv := k.opened_dv i }

/-- What the end of `p` does: `k` becomes `k'`, where the lists of `k` are `f`. -/
structure CleanedUp (f : Queue → List Idx) (p : Idx) (k k' : Kernel) : Prop where
  /-- The senders, then the receivers, behind the old ready queue; nothing on the queues of `p`. -/
  lists : ∃ f', Family k'.links f' ∧ f' .ready = f .ready ++ f (.senders p) ++ f (.receivers p) ∧
    f' (.senders p) = [] ∧ f' (.receivers p) = [] ∧
    ∀ q, q ≠ .ready → q ≠ .senders p → q ≠ .receivers p → f' q = f q
  /-- Each of them is ready, and was told that the pid is gone. -/
  woken : ∀ i ∈ f (.senders p) ++ f (.receivers p),
    pcbOf k' i = { pcbOf k i with state := .READY, irc := SYS_SR_NO_PID }
  stopped : k'.state p = .STOPPED ∧ k'.senders p = none ∧ k'.receivers p = none ∧ k'.next p = none
  closed : ∀ fd, k'.opened_dv p fd = none
  /-- One `kfree` of the stack, and the one a deletion from the map does. -/
  freed : k'.stack p = 0 ∧ ∃ h, kfree k.toHeap (k.stack p) = some h ∧
    delete h k.pidMap (k.pid p) = some (k'.pidMap, k'.toHeap)
  unmapped : pidMapLookup k' (k.pid p) = none ∧ ∀ pid, pid ≠ k.pid p → pidMapLookup k' pid = pidMapLookup k pid
  /-- Nothing of any other process changes, but for the link of the last ready one. -/
  others : ∀ i, i ≠ p → i ∉ f (.senders p) ++ f (.receivers p) →
    pcbOf k' i = pcbOf k i ∧ ((f .ready).getLast? ≠ some i → k'.next i = k.next i)

/-- The state in which `cleanup` ends: `k2` is left by its loops, `m` and `t` by the heap and the map. -/
def gone (k k2 : Kernel) (p : Idx) (m : Heap) (t : TreeNode) : Kernel :=
  { close_all keyboards k2 p with
    toHeap := m
    pidMap := t
    next := Function.update k2.next p none
    stack := Function.update k.stack p 0
    state := Function.update k2.state p .STOPPED }

/-- The loops of `cleanup` end; what is left to go wrong is the heap. -/
theorem cleanup_eq (h : Family k.links f) (p : Idx) :
    ∃ k2, Family k2.links (cleaned f p) ∧
      k2 = { k with
        ready_queue := k2.ready_queue
        sleep_list := k2.sleep_list
        senders := k2.senders
        receivers := k2.receivers
        next := k2.next
        irc := setAll k.irc (f (.senders p) ++ f (.receivers p)) SYS_SR_NO_PID
        state := setAll k.state (f (.senders p) ++ f (.receivers p)) .READY } ∧
      (∀ i, i ∉ f (.senders p) ++ f (.receivers p) → (f .ready).getLast? ≠ some i → k2.next i = k.next i) ∧
      cleanup keyboards k p = (kfree k.toHeap (k.stack p)).bind fun hp =>
        (delete hp k.pidMap (k.pid p)).bind fun (t, hp') => some (gone k k2 p hp' t) := by
  obtain ⟨k1, k2, hd1, hd2, h2, e2, hnext⟩ := drain_both h p
  refine ⟨k2, h2, e2, hnext, ?_⟩
  have hclose := close_all_eq k2 p
  have hheap : (close_all keyboards k2 p).toHeap = k.toHeap := by rw [hclose, e2]
  have hstack : (close_all keyboards k2 p).stack = k.stack := by rw [hclose, e2]
  have hmap : (close_all keyboards k2 p).pidMap = k.pidMap := by rw [hclose, e2]
  have hpid : (close_all keyboards k2 p).pid = k.pid := by rw [hclose, e2]
  have hst : (close_all keyboards k2 p).state = k2.state := by rw [hclose]
  have hnx : (close_all keyboards k2 p).next = k2.next := by rw [hclose]
  unfold cleanup
  rw [hd1]
  change (drain (.receivers p) DRAIN_FUEL k1).bind _ = _
  rw [hd2]
  change (kfree (close_all keyboards k2 p).toHeap ((close_all keyboards k2 p).stack p)).bind _ = _
  rw [hheap, hstack, hst, hnx]
  congr 1
  funext hp'
  rw [← hmap, ← hpid]
  rfl

section gone
variable {k2 : Kernel} {m : Heap} {t : TreeNode}

theorem gone_lists (h2 : Family k2.links (cleaned f p)) (hun : ∀ q, p ∉ f q) :
    Family (gone k k2 p m t).links (cleaned f p) := by
  have hlinks : (gone k k2 p m t).links = Function.update k2.links (.next p) none := by
    rw [gone, close_all_eq]
    exact links_assign k2 (.next p) none
  rw [hlinks]
  exact h2.unlisted (not_mem_cleaned hun) none

theorem gone_opened : (gone k k2 p m t).opened_dv = Function.update k2.opened_dv p fun _ => none :=
  close_all_opened k2 p

/-- Another process keeps its queues, since its lists are the same; the loops write its state and return value. -/
theorem gone_pcb (h : Family k.links f) (h2 : Family k2.links (cleaned f p)) (hun : ∀ q, p ∉ f q)
    (e2 : k2 = { k with
      ready_queue := k2.ready_queue, sleep_list := k2.sleep_list, senders := k2.senders, receivers := k2.receivers
      next := k2.next, irc := k2.irc, state := k2.state }) {i : Idx} (hip : i ≠ p) :
    pcbOf (gone k k2 p m t) i = { pcbOf k i with state := k2.state i, irc := k2.irc i } := by
  have hfam := gone_lists (k := k) (m := m) (t := t) h2 hun
  have hhead : ∀ q, q ≠ .ready → q ≠ .senders p → q ≠ .receivers p →
      (gone k k2 p m t).links (.head q) = k.links (.head q) := by
    intro q hr hs hv
    rw [(hfam.chain q).head?, cleaned_other hr hs hv, (h.chain q).head?]
  have hs : (gone k k2 p m t).senders i = k.senders i := hhead (.senders i) (by simp) (by simpa using hip) (by simp)
  have hr : (gone k k2 p m t).receivers i = k.receivers i :=
    hhead (.receivers i) (by simp) (by simp) (by simpa using hip)
  have hst : (gone k k2 p m t).stack i = k.stack i := Function.update_of_ne hip ..
  have hstate : (gone k k2 p m t).state i = k2.state i := Function.update_of_ne hip ..
  have hirc : (gone k k2 p m t).irc i = k2.irc i := close_all_irc k2 hip
  have hdv : (gone k k2 p m t).opened_dv i = k.opened_dv i := by
    rw [gone_opened, Function.update_of_ne hip, e2]
  have hrest : pcbOf (gone k k2 p m t) i = { pcbOf k i with
      state := (gone k k2 p m t).state i, senders := (gone k k2 p m t).senders i
      receivers := (gone k k2 p m t).receivers i, stack := (gone k k2 p m t).stack i
      irc := (gone k k2 p m t).irc i, opened_dv := (gone k k2 p m t).opened_dv i } := by
    rw [gone, close_all_eq, e2]
    rfl
  rw [hrest, hstate, hs, hr, hst, hirc, hdv]
  rfl

end gone

/-- A deletion takes its pid out of the map, and no other. -/
theorem lookup_of_delete {hp hp' : Heap} {t t' : TreeNode} {pid : Word} (ho : t.Ordered)
    (hd : delete hp t pid = some (t', hp')) :
    lookup t' pid = none ∧ ∀ pid', pid' ≠ pid → lookup t' pid' = lookup t pid' := by
  obtain ⟨hdrop, hord⟩ := delete_drops ho hd
  refine ⟨lookup_none hord fun v hv => ((hdrop _ v).1 hv).1 rfl, fun pid' hne => ?_⟩
  have hiff : ∀ v, lookup t' pid' = some v ↔ lookup t pid' = some v := by
    intro v
    rw [lookup_iff hord, lookup_iff ho, hdrop]
    exact and_iff_right hne
  exact Option.ext hiff

/-- From lists without circles that share no process, the end of the running process `p` returns when
`kfree` and `delete` do, and does what `CleanedUp` says. -/
theorem cleanup_frame (h : Family k.links f) (hp : ∀ q, p ∉ f q) (ho : k.pidMap.Ordered) :
    ((cleanup keyboards k p).isSome ↔ ((kfree k.toHeap (k.stack p)).bind fun hp =>
      delete hp k.pidMap (k.pid p)).isSome) ∧
    ∀ k', cleanup keyboards k p = some k' → CleanedUp f p k k' := by
  obtain ⟨k2, h2, e2, hnext, hc⟩ := cleanup_eq h p
  rw [hc]
  constructor
  · cases kfree k.toHeap (k.stack p) with
    | none => rfl
    | some hp => cases hd : delete hp k.pidMap (k.pid p) <;> simp [hd]
  intro k' hk'
  obtain ⟨hp1, hkf, hk'⟩ := Option.bind_eq_some_iff.1 hk'
  obtain ⟨⟨t, hp2⟩, hdel, hk'⟩ := Option.bind_eq_some_iff.1 hk'
  cases hk'
  have hfam := gone_lists (k := k) (m := hp2) (t := t) h2 hp
  have hhead (q : Queue) : (gone k k2 p hp2 t).links (.head q) = (cleaned f p q).head? := (hfam.chain q).head?
  have hstate2 : k2.state = setAll k.state (f (.senders p) ++ f (.receivers p)) .READY := by rw [e2]
  have hirc2 : k2.irc = setAll k.irc (f (.senders p) ++ f (.receivers p)) SYS_SR_NO_PID := by rw [e2]
  have e2' : k2 = { k with
      ready_queue := k2.ready_queue, sleep_list := k2.sleep_list, senders := k2.senders, receivers := k2.receivers
      next := k2.next, irc := k2.irc, state := k2.state } := by
    rw [hirc2, hstate2]
    exact e2
  have hpcb {i : Idx} (hip : i ≠ p) := gone_pcb (m := hp2) (t := t) h h2 hp e2' hip
  refine ⟨⟨_, hfam, cleaned_ready, cleaned_senders, cleaned_receivers, fun _ => cleaned_other⟩, ?_, ?_, ?_, ?_, ?_, ?_⟩
  · intro i hi
    have hip : i ≠ p := by
      rintro rfl
      rcases List.mem_append.1 hi with hi | hi
      · exact hp _ hi
      · exact hp _ hi
    rw [hpcb hip, hstate2, hirc2, setAll_mem _ _ hi, setAll_mem _ _ hi]
  · refine ⟨Function.update_self .., ?_, ?_, Function.update_self ..⟩
    · exact (hhead (.senders p)).trans (by rw [cleaned_senders]; rfl)
    · exact (hhead (.receivers p)).trans (by rw [cleaned_receivers]; rfl)
  · intro fd
    rw [gone_opened, Function.update_self]
  · exact ⟨Function.update_self .., hp1, hkf, hdel⟩
  · exact lookup_of_delete ho hdel
  · intro i hip hi
    refine ⟨?_, fun hlast => (Function.update_of_ne hip ..).trans (hnext i hi hlast)⟩
    rw [hpcb hip, hstate2, hirc2, setAll_not_mem _ _ hi, setAll_not_mem _ _ hi]
    rfl

/-- PCB 0 runs and has the keyboard open; 1 waits to send to it, 2 to receive from it, and 3 is ready.
The stack and the node of the map are blocks of 16 and 32 bytes. -/
def parting : Kernel :=
  { statics (fun _ => 0) with
    mem := [(0xF0, 16), (0xFC, 0x100), (0x1F0, 32), (0x1FC, 0x200)].foldl (fun m a => m.store32 a.1 a.2) fun _ => 0
    pid := fun i => if i = 0 then 7 else pcbIndex i
    stack := fun _ => 0x100
    senders := Function.update (fun _ => none) 0 (some 1)
    receivers := Function.update (fun _ => none) 0 (some 2)
    ready_queue := some 3
    opened_dv := Function.update (fun _ _ => none) 0 (fun fd => if fd = 2 then some 1 else none)
    pidMap := .node 0x200 7 0 1 .null .null }

def partingLists : Queue → List Idx
  | .ready => [3]
  | .sleepers => []
  | .senders p => if p = 0 then [1] else []
  | .receivers p => if p = 0 then [2] else []

theorem parting_lists : Family parting.links partingLists := by
  refine ⟨?_, ?_, ?_⟩
  · rintro (_ | _ | p | p)
    · exact ⟨rfl, rfl⟩
    · rfl
    · by_cases hp : p = 0
      · subst hp
        exact ⟨rfl, rfl⟩
      · simp only [partingLists, if_neg hp]
        change Function.update (fun _ => none) 0 (some 1) p = none
        rw [Function.update_of_ne hp]
    · by_cases hp : p = 0
      · subst hp
        exact ⟨rfl, rfl⟩
      · simp only [partingLists, if_neg hp]
        change Function.update (fun _ => none) 0 (some 2) p = none
        rw [Function.update_of_ne hp]
  · rintro (_ | _ | p | p) <;> simp only [partingLists] <;> (try split) <;> simp
  · rintro (_ | _ | p | p) (_ | _ | q | q) i <;> simp only [partingLists] <;> grind

theorem cleanup_frame_parting : ∃ k', cleanup keyboards parting 0 = some k' ∧
    pcbOf k' 1 = { pcbOf parting 1 with state := .READY, irc := SYS_SR_NO_PID } ∧ k'.opened_dv 0 2 = none ∧
    pidMapLookup k' 7 = none ∧ ∃ f', Family k'.links f' ∧ f' .ready = [3, 1, 2] := by
  have hp : ∀ q, (0 : Idx) ∉ partingLists q := by
    rintro (_ | _ | p | p) <;> simp only [partingLists] <;> grind
  obtain ⟨hret, hdone⟩ := cleanup_frame parting_lists hp (List.pairwise_singleton _ _)
  have hsome : (cleanup keyboards parting 0).isSome := hret.2 (by decide +kernel)
  obtain ⟨k', hk'⟩ := Option.isSome_iff_exists.1 hsome
  obtain ⟨f', hf, hready, -⟩ := (hdone k' hk').lists
  exact ⟨k', hk', (hdone k' hk').woken 1 (by decide), (hdone k' hk').closed 2, (hdone k' hk').unmapped.1, f', hf,
    hready⟩

end Xeros
