import Xeros.Heap.Runs
import Xeros.PidMap.Nodes
import Xeros.Procs.Cleanup
import Xeros.Procs.Creation
import Xeros.Procs.InUse
/-!
# Who holds the memory of the kernel

The kernel is a client of the allocator: it holds a pointer from the `kmalloc`
that returned it to the `kfree` that gives it back. In every run it only frees
what it holds, and what it holds are the stacks of the processes in use, the
nodes of the pid map, and the nodes that a turn to the right has dropped, which
nobody frees any more (`LedgerInv.step`).
-/

namespace Xeros

open Links Kernel Runs TreeNode

variable {im : Image} {k k' : Kernel} {partner : Idx → Word} {f : Queue → List Idx} {p : Idx} {held lost : List Word}

/-! ## Calls of the allocator -/

/-- Calls of the allocator, one after the other; a `kfree` is of a pointer that is held. -/
def MemSys.serve (calls : List MemEvent) (s : MemSys) : Option MemSys := exec MemSys.step (fun _ _ => true) calls s

@[simp] theorem MemSys.serve_nil (s : MemSys) : MemSys.serve [] s = some s := rfl

@[simp] theorem MemSys.serve_cons (e : MemEvent) (calls : List MemEvent) (s : MemSys) :
    MemSys.serve (e :: calls) s = (MemSys.step e s).bind (MemSys.serve calls) := rfl

/-- The calls that `create` makes. -/
def createCalls (k : Kernel) (stack : Word) : List MemEvent :=
  match kmalloc k.toHeap (blockSize stack) with
  | none => []
  | some (ptr, _) => .kmalloc (blockSize stack) ::
    if ptr = 0 then []
    else if (firstStopped k).isSome then [.kmalloc SIZEOF_TREENODE]
    else [.kfree ptr]

/-- The calls that `cleanup` makes. -/
def cleanupCalls (k : Kernel) (p : Idx) : List MemEvent :=
  .kfree (k.stack p) :: ((deletedNode k.pidMap (k.pid p)).map .kfree).toList

/-- The calls of a request of `p`. -/
def calls (k : Kernel) (p : Idx) : Option Request → List MemEvent
  | some .CREATE => createCalls k (k.arg p 1)
  | some .STOP => cleanupCalls k p
  | _ => []

/-! ## The ledger -/

/-- The machine and the pointers the kernel holds. -/
structure Ledger where
  machine : Traced
  held : List Word

/-- The allocator after the calls of an event. -/
def Ledger.served (s : Ledger) (e : Event) : Option MemSys :=
  match trapped s.machine.sys e with
  | none => some ⟨s.machine.sys.kernel.toHeap, s.held⟩
  | some (k, p, r) => MemSys.serve (calls k p r) ⟨k.toHeap, s.held⟩

def ledgerStep (im : Image) (e : Event) (s : Ledger) : Option Ledger := do
  let t ← tracedStep im e s.machine
  let m ← s.served e
  some ⟨t, m.live⟩

/-- The allocator after the calls of the two creations of `initproc`. -/
def bootServed (im : Image) (m : Mem) (root : Word) : Option MemSys := do
  let k := init im m
  let s ← MemSys.serve (createCalls k 0x2000) ⟨k.toHeap, []⟩
  let (_, k) ← create im k root 0x2000 0
  MemSys.serve (createCalls k 0x2000) ⟨k.toHeap, s.live⟩

def LedgerInit (im : Image) (s : Ledger) : Prop :=
  ∃ m root idleproc, boot im m root idleproc = some s.machine.sys ∧
    (bootServed im m root).map MemSys.live = some s.held

/-- The stacks of the processes in use. -/
def stacksInUse (k : Kernel) : List Word :=
  ((List.finRange MAX_NUM_PROCESS).filter fun i => k.state i ≠ .STOPPED).map k.stack

/-- The pointers the kernel can get at. -/
def owned (k : Kernel) : List Word := stacksInUse k ++ k.pidMap.addrs

/-- What is held and nobody can get at. -/
def Ledger.leaked (s : Ledger) : List Word := s.held.diff (owned s.machine.sys.kernel)

/-- A request that turns a subtree of the pid map to the right. -/
def drops (k : Kernel) : Option Request → Bool
  | some .CREATE => createTurnsRight k
  | _ => false

def dropsNodes (s : Sys) (e : Event) : Bool :=
  match trapped s e with
  | none => false
  | some (k, _, r) => drops k r

/-! ## Stacks -/

/-- One index more passes the test. -/
theorem perm_filter_map {n : Nat} {P P' : Fin n → Bool} {g g' : Fin n → Word} {p : Fin n} (hp : P p = false)
    (hp' : P' p = true) (hP : ∀ i, i ≠ p → P' i = P i) (hg : ∀ i, i ≠ p → g' i = g i) :
    (((List.finRange n).filter P').map g').Perm (g' p :: ((List.finRange n).filter P).map g) := by
  have hsplit : (List.finRange n).Perm (p :: (List.finRange n).erase p) :=
    List.perm_cons_erase (List.mem_finRange p)
  have hne : ∀ i ∈ (List.finRange n).erase p, i ≠ p := by
    rintro i hi rfl
    exact (List.nodup_finRange n).not_mem_erase hi
  have hrest : (((List.finRange n).erase p).filter P').map g' = (((List.finRange n).erase p).filter P).map g := by
    rw [List.filter_congr fun i hi => hP i (hne i hi)]
    exact List.map_congr_left fun i hi => hg i (hne i (List.mem_of_mem_filter hi))
  have h' := (hsplit.filter P').map g'
  have h := (hsplit.filter P).map g
  rw [List.filter_cons_of_pos hp', List.map_cons, hrest] at h'
  rw [List.filter_cons_of_neg (by simp [hp])] at h
  exact h'.trans (h.symm.cons _)

theorem stacksInUse_keep (hs : SameInUse k k') (hk : k'.stack = k.stack) : stacksInUse k' = stacksInUse k := by
  unfold stacksInUse
  rw [hk]
  congr 1
  refine List.filter_congr fun i _ => ?_
  simp only [ne_eq, hs i]

/-- `p` is taken into use. -/
theorem stacksInUse_add (hp : k.state p = .STOPPED) (hp' : k'.state p ≠ .STOPPED)
    (hst : ∀ i, i ≠ p → (k'.state i = .STOPPED ↔ k.state i = .STOPPED)) (hk : ∀ i, i ≠ p → k'.stack i = k.stack i) :
    (stacksInUse k').Perm (k'.stack p :: stacksInUse k) := by
  refine perm_filter_map ?_ ?_ (fun i hi => ?_) hk
  · simp [hp]
  · simp [hp']
  · simp only [ne_eq, hst i hi]

theorem owned_keep (hs : SameInUse k k') (hk : KeepsBlocks k k') : owned k' = owned k := by
  unfold owned
  rw [stacksInUse_keep hs hk.stack, hk.pidMap]

/-! ## `create` -/

/-- A new process with its two blocks. -/
structure Creates (im : Image) (k k' : Kernel) (m : MemSys) (held : List Word) (p : Idx)
    (r func stack parent ptr : Word) : Prop where
  unused : k.state p = .STOPPED
  inUse : k'.state = Function.update k.state p .READY
  block : k'.stack = Function.update k.stack p ptr
  esp : k'.esp = Function.update k.esp p (ptr + align16 stack)
  pending : k'.pending_sig = Function.update k.pending_sig p 0
  heap : k'.toHeap = { m.heap with mem := first_context im m.heap.mem (ptr + align16 stack) func }
  inserted : ∃ h, kmalloc k.toHeap (blockSize stack) = some (ptr, h) ∧ ptr ≠ 0 ∧
    insert h k.pidMap r (pcbIndex p) = some (k'.pidMap, m.heap) ∧
    ∃ a, kmalloc h SIZEOF_TREENODE = some (a, m.heap) ∧ a ≠ 0 ∧ m.live = a :: ptr :: held
  nodes : ∃ a dropped, m.live = a :: ptr :: held ∧ (a :: k.pidMap.addrs).Perm (k'.pidMap.addrs ++ dropped) ∧
    (createTurnsRight k = false → dropped = [])

/-- With a block and an unused PCB, `create` installs a process. -/
theorem create_installs {func stack parent r ptr : Word} {h : Heap}
    (hk : kmalloc k.toHeap (blockSize stack) = some (ptr, h)) (h0 : ptr ≠ 0) (hfs : firstStopped k = some p)
    (hc : create im k func stack parent = some (r, k')) :
    getNextPid_loop k.pidMap PID_FUEL k.nextPid = some r ∧ ∃ t h2, insert h k.pidMap r (pcbIndex p) = some (t, h2) ∧
      ready (installed im k p r func stack parent ptr t h2) p = some k' := by
  cases hloop : getNextPid_loop k.pidMap PID_FUEL k.nextPid with
  | none =>
    have hnone : create im k func stack parent = none := by
      unfold create getNextPid
      refine (congrArg (Option.bind · _) hk).trans ?_
      simp only [Option.bind_eq_bind, Option.bind_some, ne_eq, h0, not_false_eq_true, if_true]
      rw [show firstStopped { k with toHeap := h } = some p from hfs]
      simp only [hloop, Option.bind_none]
    rw [hnone] at hc
    cases hc
  | some pid =>
    rw [create_new im func parent hk h0 hfs hloop] at hc
    obtain ⟨⟨t, h2⟩, hins, hc⟩ := Option.bind_eq_some_iff.1 hc
    obtain ⟨k1, hr, hc⟩ := Option.map_eq_some_iff.1 hc
    cases hc
    exact ⟨rfl, t, h2, hins, hr⟩

/-- Where a process is installed, the tree has taken one node more. -/
theorem create_creates (held : List Word) {func stack parent r ptr : Word} {h : Heap}
    (hk : kmalloc k.toHeap (blockSize stack) = some (ptr, h)) (h0 : ptr ≠ 0) (hfs : firstStopped k = some p)
    (hc : create im k func stack parent = some (r, k')) :
    ∃ m, MemSys.serve [.kmalloc SIZEOF_TREENODE] ⟨h, ptr :: held⟩ = some m ∧
      Creates im k k' m held p r func stack parent ptr := by
  obtain ⟨hloop, t, h2, hins, hr⟩ := create_installs hk h0 hfs hc
  obtain ⟨-, hnew⟩ := getNextPid_loop_spec hloop
  obtain ⟨a, dropped, hm, ha0, hperm, hturn⟩ := insert_nodes hnew hins
  have e := ready_eq hr
  have hheap : k'.toHeap = { h2 with mem := first_context im h2.mem (ptr + align16 stack) func } := by
    rw [e]
    rfl
  refine ⟨⟨h2, a :: ptr :: held⟩, ?_, firstStopped_spec hfs, ?_, ?_, ?_, ?_, hheap, ⟨h, hk, h0, ?_, a, hm, ha0, rfl⟩,
    a, dropped, rfl, ?_, ?_⟩
  · simp only [MemSys.serve_cons, MemSys.step, hm, Option.bind_eq_bind, Option.bind_some, if_neg ha0, MemSys.serve_nil]
  · rw [e]
    rfl
  · rw [e]
    rfl
  · rw [e]
    rfl
  · rw [e]
    rfl
  · rw [e]
    exact hins
  · rw [e]
    exact hperm
  · intro hno
    apply hturn
    have hnp : getNextPid k = some (r, { k with nextPid := r + 1 }) := by
      rw [getNextPid, hloop]
      rfl
    simpa [createTurnsRight, hfs, hnp] using hno

/-- The calls of `create` are those of `createCalls`. -/
theorem create_serves (held : List Word) {func stack parent r : Word}
    (hc : create im k func stack parent = some (r, k')) :
    ∃ m, MemSys.serve (createCalls k stack) ⟨k.toHeap, held⟩ = some m ∧
      (k' = { k with toHeap := m.heap } ∧ m.live = held ∨
        ∃ p ptr, Creates im k k' m held p r func stack parent ptr) := by
  unfold createCalls
  cases hk : kmalloc k.toHeap (blockSize stack) with
  | none =>
    have hnone : create im k func stack parent = none := congrArg (Option.bind · _) hk
    rw [hnone] at hc
    cases hc
  | some x =>
    obtain ⟨ptr, h⟩ := x
    simp only [MemSys.serve_cons]
    by_cases h0 : ptr = 0
    · subst h0
      rw [create_refused im func parent hk] at hc
      cases hc
      refine ⟨⟨h, held⟩, ?_, .inl ⟨rfl, rfl⟩⟩
      simp [MemSys.step, hk]
    have hstep : MemSys.step (.kmalloc (blockSize stack)) ⟨k.toHeap, held⟩ = some ⟨h, ptr :: held⟩ := by
      simp only [MemSys.step, hk, Option.bind_eq_bind, Option.bind_some, if_neg h0]
    rw [if_neg h0, hstep, Option.bind_some]
    cases hfs : firstStopped k with
    | none =>
      -- no PCB is left, and the block is given back
      rw [create_full im func parent hk h0 hfs] at hc
      obtain ⟨h', hf, hc⟩ := Option.map_eq_some_iff.1 hc
      cases hc
      refine ⟨⟨h', held⟩, ?_, .inl ⟨rfl, rfl⟩⟩
      simp [MemSys.step, hf]
    | some p =>
      obtain ⟨m, hs, hcr⟩ := create_creates held hk h0 hfs hc
      exact ⟨m, hs, .inr ⟨p, ptr, hcr⟩⟩

/-- The new stack and the new node are held; nodes are dropped only by a turn to the right. -/
theorem Creates.books {m : MemSys} {r func stack parent ptr : Word}
    (h : Creates im k k' m held p r func stack parent ptr) (hb : held.Perm (owned k ++ lost)) :
    ∃ dropped, m.live.Perm (owned k' ++ (dropped ++ lost)) ∧ (createTurnsRight k = false → dropped = []) := by
  obtain ⟨a, dropped, hlive, hnodes, hturn⟩ := h.nodes
  refine ⟨dropped, ?_, hturn⟩
  have hready : k'.state p ≠ .STOPPED := by
    rw [h.inUse, Function.update_self]
    decide
  have hstacks := stacksInUse_add h.unused hready
    (fun i hi => by rw [h.inUse, Function.update_of_ne hi]) (fun i hi => by rw [h.block, Function.update_of_ne hi])
  rw [h.block, Function.update_self] at hstacks
  refine List.perm_iff_count.2 fun c => ?_
  have h1 := hb.count_eq c
  have h2 := hnodes.count_eq c
  have h3 := hstacks.count_eq c
  simp only [hlive, owned, List.count_append, List.count_cons] at h1 h2 h3 ⊢
  omega

/-- `create` frees only what is held; it takes a stack and a node for a new process. -/
theorem create_books {func stack parent r : Word} (hb : held.Perm (owned k ++ lost))
    (hc : create im k func stack parent = some (r, k')) : ∃ m dropped,
      MemSys.serve (createCalls k stack) ⟨k.toHeap, held⟩ = some m ∧ k'.freeList = m.heap.freeList ∧
      m.live.Perm (owned k' ++ (dropped ++ lost)) ∧ (createTurnsRight k = false → dropped = []) := by
  obtain ⟨m, hs, ⟨e, hlive⟩ | ⟨p, ptr, hcr⟩⟩ := create_serves held hc
  · have howned : owned k' = owned k := by
      rw [e]
      rfl
    refine ⟨m, [], hs, by rw [e], ?_, fun _ => rfl⟩
    rw [howned, hlive]
    exact hb
  · obtain ⟨dropped, hlive, hno⟩ := hcr.books hb
    exact ⟨m, dropped, hs, by rw [hcr.heap], hlive, hno⟩

/-! ## `cleanup` -/

/-- Taking `p` out of use, its stack out of memory and its pid out of the map
makes the calls of `cleanupCalls`, of pointers that are held. -/
theorem freed_serves {h1 : Heap} (hused : k.state p ≠ .STOPPED) (hstopped : k'.state p = .STOPPED)
    (hst : ∀ i, i ≠ p → (k.state i = .STOPPED ↔ k'.state i = .STOPPED))
    (hstack' : k'.stack = Function.update k.stack p 0) (hb : held.Perm (owned k ++ lost))
    (hfree : kfree k.toHeap (k.stack p) = some h1) (hdel : delete h1 k.pidMap (k.pid p) = some (k'.pidMap, k'.toHeap)) :
    ∃ m, MemSys.serve (cleanupCalls k p) ⟨k.toHeap, held⟩ = some m ∧ k'.toHeap = m.heap ∧
      m.live.Perm (owned k' ++ lost) ∧ k'.pidMap.addrs.Subperm k.pidMap.addrs := by
  obtain ⟨t, hnodes, hdel'⟩ := delete_nodes k.pidMap (k.pid p)
  rw [hdel' h1] at hdel
  obtain ⟨h2, hnode, e⟩ := Option.map_eq_some_iff.1 hdel
  obtain ⟨rfl, rfl⟩ := Prod.mk.inj e
  have hnodes' : k'.pidMap.addrs.Subperm k.pidMap.addrs :=
    (List.sublist_append_right _ _).subperm.trans hnodes.symm.subperm
  have hstacks : (stacksInUse k).Perm (k.stack p :: stacksInUse k') := by
    refine stacksInUse_add hstopped hused hst fun i hip => ?_
    rw [hstack', Function.update_of_ne hip]
  -- the stack goes first
  have hheld : held.Perm (k.stack p :: (stacksInUse k' ++ k.pidMap.addrs ++ lost)) := by
    refine hb.trans (List.perm_iff_count.2 fun c => ?_)
    have hc := hstacks.count_eq c
    simp only [owned, List.count_append, List.count_cons] at hc ⊢
    omega
  have hmem : k.stack p ∈ held := hheld.mem_iff.2 List.mem_cons_self
  have hrest : (held.erase (k.stack p)).Perm (stacksInUse k' ++ k.pidMap.addrs ++ lost) := by
    have he := hheld.erase (k.stack p)
    rwa [List.erase_cons_head] at he
  have hstep : MemSys.step (.kfree (k.stack p)) ⟨k.toHeap, held⟩ = some ⟨h1, held.erase (k.stack p)⟩ := by
    simp only [MemSys.step, if_pos hmem, hfree, Option.bind_eq_bind, Option.bind_some]
  unfold cleanupCalls
  rw [MemSys.serve_cons, hstep, Option.bind_some]
  cases hd : deletedNode k.pidMap (k.pid p) with
  | none =>
    rw [hd] at hnode hnodes
    have e : h1 = k'.toHeap := Option.some.inj hnode
    refine ⟨_, rfl, e.symm, hrest.trans ?_, hnodes'⟩
    refine List.perm_iff_count.2 fun c => ?_
    have hc := hnodes.count_eq c
    simp only [owned, List.count_append, Option.toList_none, List.count_nil] at hc ⊢
    omega
  | some a =>
    rw [hd] at hnode hnodes
    have hrest' : (held.erase (k.stack p)).Perm (a :: (owned k' ++ lost)) := by
      refine hrest.trans (List.perm_iff_count.2 fun c => ?_)
      have hc := hnodes.count_eq c
      simp only [owned, List.count_append, List.count_cons, Option.toList_some, List.count_nil] at hc ⊢
      omega
    have ha : a ∈ held.erase (k.stack p) := hrest'.mem_iff.2 List.mem_cons_self
    have hnode' : kfree h1 a = some k'.toHeap := hnode
    refine ⟨⟨k'.toHeap, (held.erase (k.stack p)).erase a⟩, ?_, rfl, ?_, hnodes'⟩
    · simp only [Option.map_some, Option.toList_some, MemSys.serve_cons, MemSys.step, if_pos ha, hnode',
        Option.bind_eq_bind, Option.bind_some, MemSys.serve_nil]
    · have he := hrest'.erase a
      rwa [List.erase_cons_head] at he

/-- The calls of `cleanup` are those of `cleanupCalls`. -/
theorem cleanup_serves (h : Sound k partner f) (hp : k.state p = .RUNNING) (hb : held.Perm (owned k ++ lost))
    (hc : cleanup keyboards k p = some k') : ∃ m, MemSys.serve (cleanupCalls k p) ⟨k.toHeap, held⟩ = some m ∧
      k'.toHeap = m.heap ∧ m.live.Perm (owned k' ++ lost) ∧ k'.pidMap.addrs.Subperm k.pidMap.addrs := by
  obtain ⟨-, -, -, hstopped, -, hwoken, hothers⟩ := h.cleanup hp hc
  obtain ⟨k2, -, -, -, hcleanup⟩ := cleanup_eq h.queued.lists p
  rw [hcleanup] at hc
  obtain ⟨h1, hfree, hc⟩ := Option.bind_eq_some_iff.1 hc
  obtain ⟨⟨t, h2⟩, hdel, hc⟩ := Option.bind_eq_some_iff.1 hc
  have hk : k' = gone k k2 p h2 t := (Option.some.inj hc).symm
  have hst : ∀ i, i ≠ p → (k.state i = .STOPPED ↔ k'.state i = .STOPPED) := by
    intro i hip
    by_cases hi : i ∈ f (.senders p) ++ f (.receivers p)
    · have hused : k.state i ≠ .STOPPED := by
        rcases List.mem_append.1 hi with hi | hi
        · exact (h.queued.fits _ i hi).ne_stopped
        · exact (h.queued.fits _ i hi).ne_stopped
      rw [(hwoken i hi).1]
      exact iff_of_false hused (by simp)
    · rw [hothers i hi hip]
  refine freed_serves (by simp [hp]) hstopped hst ?_ hb hfree ?_
  · rw [hk, gone]
  · rw [hk]
    exact hdel

/-! ## Steps -/

theorem owned_trapped {s : Sys} {e : Event} {r : Option Request} (ht : trapped s e = some (k, p, r)) :
    owned k = owned s.kernel ∧ k.toHeap = s.kernel.toHeap := by
  have e := trapped_eq ht
  refine ⟨?_, by rw [e]⟩
  unfold owned stacksInUse
  rw [e]

/-- The kernel when the allocator and the pid map have done what the request asks of them. -/
def granted (im : Image) (k : Kernel) (p : Idx) : Option Request → Option Kernel
  | some .CREATE => (create im k (k.arg p 0) (k.arg p 1) (k.pid p)).map Prod.snd
  | some .STOP => cleanup keyboards k p
  | _ => some k

/-- The rest of a turn of the dispatcher neither takes memory nor gives any back. -/
theorem turn_granted {r : Option Request} {sys : Sys} (h : Sound k partner f) (hp : Runs k p)
    (hok : ∀ x, r = some x → RequestOk k partner p x) (hd : dispatch_request im k p r = some sys) :
    ∃ k1, granted im k p r = some k1 ∧ owned sys.kernel = owned k1 ∧ KeepsBlocks k1 sys.kernel := by
  cases r with
  | none =>
    have hn : dispatch_next im k none = some sys := hd
    have hnone : ∀ q, (none : Option Idx) = some q → k.state q = .RUNNING := by
      rintro q ⟨⟩
    obtain ⟨hsame, hkeep⟩ := dispatch_next_keeps h hnone hn
    exact ⟨k, rfl, owned_keep hsame hkeep, hkeep⟩
  | some x =>
    by_cases ht : x = .TIME_INT
    · subst ht
      cases hd
      exact ⟨k, rfl, rfl, ⟨rfl, rfl, rfl⟩⟩
    rw [dispatch_request_eq im k p ht] at hd
    obtain ⟨⟨k1, tr⟩, hh, hd⟩ := Option.bind_eq_some_iff.1 hd
    obtain ⟨⟨f1, h1, -⟩, htr⟩ := h.handled hp (hok x rfl) hh
    obtain ⟨hsame1, hkeep1⟩ := dispatch_next_keeps h1 htr hd
    by_cases hc : x = .CREATE
    · subst hc
      obtain ⟨⟨pid, k2⟩, hc, hh⟩ := Option.bind_eq_some_iff.1 hh
      cases hh
      refine ⟨k2, ?_, (owned_keep hsame1 hkeep1).trans rfl, ?_⟩
      · rw [granted, hc]
        rfl
      · exact ⟨hkeep1.stack, hkeep1.pidMap, hkeep1.freeList⟩
    by_cases hs : x = .STOP
    · subst hs
      obtain ⟨k2, hc, hh⟩ := Option.bind_eq_some_iff.1 hh
      cases hh
      exact ⟨k1, hc, owned_keep hsame1 hkeep1, hkeep1⟩
    have hgranted : granted im k p (some x) = some k := by
      cases x with
      | CREATE => exact absurd rfl hc
      | STOP => exact absurd rfl hs
      | _ => rfl
    have hsound : Sound k (retarget partner p (named k p x)) f := h.renamed hp _
    obtain ⟨hsame, hkeep⟩ := handle_request_keeps hc hs hsound hp ((hok x rfl).retarget hp.1 _)
      (fun w hw => by rw [hw]; exact Function.update_self ..) hh
    refine ⟨k, hgranted, ?_, hkeep.trans hkeep1⟩
    rw [owned_keep hsame1 hkeep1, owned_keep hsame hkeep]

/-- What is granted makes the calls of the request. -/
theorem granted_books {r : Option Request} (h : Sound k partner f) (hp : Runs k p) (hb : held.Perm (owned k ++ lost))
    (hg : granted im k p r = some k') : ∃ m dropped,
      MemSys.serve (calls k p r) ⟨k.toHeap, held⟩ = some m ∧ k'.freeList = m.heap.freeList ∧
      m.live.Perm (owned k' ++ (dropped ++ lost)) ∧ (drops k r = false → dropped = []) := by
  by_cases hc : r = some .CREATE
  · subst hc
    obtain ⟨⟨pid, k1⟩, hc, e⟩ := Option.map_eq_some_iff.1 hg
    cases e
    exact create_books hb hc
  by_cases hs : r = some .STOP
  · subst hs
    obtain ⟨m, hs, hheap, hlive, -⟩ := cleanup_serves h hp.1 hb hg
    exact ⟨m, [], hs, congrArg Heap.freeList hheap, hlive, fun _ => rfl⟩
  have hnone : granted im k p r = some k ∧ calls k p r = [] := by
    cases r with
    | none => exact ⟨rfl, rfl⟩
    | some x =>
      cases x with
      | CREATE => exact absurd rfl hc
      | STOP => exact absurd rfl hs
      | _ => exact ⟨rfl, rfl⟩
  rw [hnone.1] at hg
  cases hg
  rw [hnone.2]
  exact ⟨_, [], rfl, rfl, hb, fun _ => rfl⟩

/-- A turn of the dispatcher makes the calls of the request, and then nothing that matters. -/
theorem turn_books {r : Option Request} {sys : Sys} (h : Sound k partner f) (hp : Runs k p)
    (hok : ∀ x, r = some x → RequestOk k partner p x) (hb : held.Perm (owned k ++ lost))
    (hd : dispatch_request im k p r = some sys) : ∃ m dropped,
      MemSys.serve (calls k p r) ⟨k.toHeap, held⟩ = some m ∧ sys.kernel.freeList = m.heap.freeList ∧
      m.live.Perm (owned sys.kernel ++ (dropped ++ lost)) ∧ (drops k r = false → dropped = []) := by
  obtain ⟨k1, hg, howned, hkeep⟩ := turn_granted h hp hok hd
  obtain ⟨m, dropped, hs, hfree, hlive, hno⟩ := granted_books h hp hb hg
  refine ⟨m, dropped, hs, hkeep.freeList.trans hfree, ?_, hno⟩
  rw [howned]
  exact hlive

/-- A step makes the calls of `served`, and holds what is in use afterwards. -/
theorem step_books {s : Ledger} {e : Event} {t : Traced} (h : TracedInv s.machine)
    (hb : s.held.Perm (owned s.machine.sys.kernel ++ lost)) (hok : ReadiesUnlisted s.machine e)
    (ht : tracedStep im e s.machine = some t) : ∃ m dropped, s.served e = some m ∧
      t.sys.kernel.freeList = m.heap.freeList ∧ m.live.Perm (owned t.sys.kernel ++ (dropped ++ lost)) ∧
      (dropsNodes s.machine.sys e = false → dropped = []) := by
  rcases tracedStep_cases ht with ⟨g, rfl, rfl⟩ | ⟨codes, k, t, rfl, hl, rfl⟩ | ⟨k, p, r, sys, htr, hd, rfl⟩
  · exact ⟨_, [], rfl, rfl, hb, fun _ => rfl⟩
  · refine ⟨_, [], rfl, ?_, ?_, fun _ => rfl⟩
    · rw [keyboard_lower_eq hl]
    · have hsame : SameInUse s.machine.sys.kernel k := .keyboard_lower hok hl
      have hkeep : KeepsBlocks s.machine.sys.kernel k := by
        rw [keyboard_lower_eq hl]
        exact ⟨rfl, rfl, rfl⟩
      rw [owned_keep hsame hkeep]
      exact hb
  obtain ⟨howned, hheap⟩ := owned_trapped htr
  rw [← howned] at hb
  obtain ⟨⟨f, hf⟩, hp⟩ := h.at_trap htr
  have hreq : ∀ x, r = some x → RequestOk k s.machine.partner p x := by
    intro x hx
    subst hx
    exact hok.request htr
  have hserved : s.served e = MemSys.serve (calls k p r) ⟨k.toHeap, s.held⟩ := by
    unfold Ledger.served
    rw [htr]
  have hdrops : dropsNodes s.machine.sys e = drops k r := by
    unfold dropsNodes
    rw [htr]
  rw [hserved, hdrops]
  exact turn_books hf hp hreq hb hd

/-! ## Boot -/

/-- The tree of a single node never turns. -/
theorem single_keeps (a q i pid : Word) : insertTurnsRight (.node a q i 1 .null .null) pid = false := by
  unfold insertTurnsRight
  split
  · rfl
  · simp [insertTurnsRight, turnsRight, updateHeight, grown, shape, balanceFactor, heightOf]

/-- After the first creation the map has at most one node. -/
theorem create_first {func stack parent r : Word} (hmap : k.pidMap = .null)
    (hc : create im k func stack parent = some (r, k')) (pid : Word) : insertTurnsRight k'.pidMap pid = false := by
  obtain ⟨m, -, ⟨e, -⟩ | ⟨p, ptr, hcr⟩⟩ := create_serves [] hc
  · rw [e]
    change insertTurnsRight k.pidMap pid = false
    rw [hmap]
    rfl
  · obtain ⟨h, -, -, hins, -⟩ := hcr.inserted
    rw [hmap] at hins
    obtain ⟨⟨a, h'⟩, -, hins⟩ := Option.bind_eq_some_iff.1 hins
    simp only [] at hins
    split at hins
    · cases hins
    · simp only [Option.some.injEq, Prod.mk.injEq] at hins
      rw [← hins.1]
      exact single_keeps ..

/-- Who is taken off the ready queue is in use. -/
theorem next_inUse {q : Idx} (h : Sound k partner f) (hn : (next k).1 = some q) : k.state q ≠ .STOPPED := by
  cases hf : f .ready with
  | nil =>
    rw [next_none h.queued.lists hf] at hn
    cases hn
  | cons i is =>
    obtain ⟨k', hn', -⟩ := h.queued.next hf
    rw [hn'] at hn
    cases hn
    exact (h.queued.fits .ready q (by rw [hf]; exact List.mem_cons_self)).ne_stopped

/-- The first process of the boot is resumed. -/
theorem resumed_keeps (im : Image) {q : Idx} (h : Sound k partner f) (hn : (next k).1 = some q) :
    SameInUse k (resume im (next k).2 q) ∧ KeepsBlocks k (resume im (next k).2 q) := by
  have hkeep : KeepsBlocks k (next k).2 := .of_moves (.next k)
  have hready := next_inUse h hn
  have hstate : (next k).2.state = k.state := by rw [next_eq]
  have hruns : PState.RUNNING ≠ .STOPPED := by decide
  rw [resume_eq]
  refine ⟨.of_update hready hruns ?_, hkeep.stack, hkeep.pidMap, hkeep.freeList⟩
  exact congrArg (Function.update · q PState.RUNNING) hstate

theorem owned_init (im : Image) (m : Mem) : owned (init im m) = [] := by
  unfold owned stacksInUse
  rw [List.filter_eq_nil_iff.2]
  · rfl
  · intro i _
    simp [init, init_pcb_table]

/-- After boot, two stacks and two nodes are held, if the heap has room for them. -/
theorem boot_books {m : Mem} {root idleproc : Word} {s : Sys} (hb : boot im m root idleproc = some s) :
    ∃ a, bootServed im m root = some a ∧ s.kernel.freeList = a.heap.freeList ∧ a.live.Perm (owned s.kernel) := by
  obtain ⟨pid1, k1, pid2, k2, idle, hc1, hc2, -, hend⟩ := boot_cases hb
  have hb0 : ([] : List Word).Perm (owned (init im m) ++ []) := by
    rw [owned_init]
    exact List.Perm.refl _
  obtain ⟨a1, d1, hs1, -, hlive1, hno1⟩ := create_books hb0 hc1
  rw [hno1 (by simp [createTurnsRight, init, init_pcb_table, insertTurnsRight])] at hlive1
  obtain ⟨a2, d2, hs2, hfree2, hlive2, hno2⟩ := create_books hlive1 hc2
  have hfirst := create_first rfl hc1
  rw [hno2 (by simp [createTurnsRight, hfirst])] at hlive2
  simp only [List.append_nil] at hlive2
  have hserved : bootServed im m root = some a2 := by
    simp only [bootServed, hs1, hc1, hs2, Option.bind_eq_bind, Option.bind_some]
  obtain ⟨⟨f1, hf1, -⟩, -⟩ := (Sound.init im m fun _ => 0).create hc1
  obtain ⟨⟨f2, hf2, -⟩, -⟩ := hf1.create hc2
  have hf3 : Sound { k2 with idle := some idle } (fun _ => 0) f2 := ⟨hf2.queued, hf2.map⟩
  have howned : owned s.kernel = owned k2 ∧ s.kernel.freeList = k2.freeList := by
    rcases hend with ⟨-, rfl⟩ | ⟨q, hn, rfl⟩
    · have hsame : SameInUse { k2 with idle := some idle } (next { k2 with idle := some idle }).2 := by
        apply SameInUse.of_eq
        rw [next_eq]
      have hkeep := KeepsBlocks.of_moves (Moves.next { k2 with idle := some idle })
      have howned := owned_keep hsame hkeep
      exact ⟨howned, hkeep.freeList⟩
    · obtain ⟨hsame, hkeep⟩ := resumed_keeps im hf3 hn
      have howned := owned_keep hsame hkeep
      exact ⟨howned, hkeep.freeList⟩
  refine ⟨a2, hserved, howned.2.trans hfree2, ?_⟩
  rw [howned.1]
  exact hlive2

/-! ## Results -/

/-- What is held is what the kernel can get at, and what is lost. -/
structure LedgerInv (s : Ledger) (lost : List Word) : Prop where
  traced : TracedInv s.machine
  books : s.held.Perm (owned s.machine.sys.kernel ++ lost)

theorem LedgerInv.boot {s : Ledger} (hs : LedgerInit im s) : LedgerInv s [] := by
  obtain ⟨m, root, idleproc, hb, hheld⟩ := hs
  obtain ⟨a, ha, -, hlive⟩ := boot_books hb
  rw [ha] at hheld
  refine ⟨(TracedInv.boot hb).1, ?_⟩
  rw [List.append_nil, ← Option.some.inj hheld]
  exact hlive

theorem LedgerInv.leaked {s : Ledger} (h : LedgerInv s lost) : s.leaked.Perm lost := by
  refine List.perm_iff_count.2 fun c => ?_
  have hc := h.books.count_eq c
  unfold Ledger.leaked
  rw [List.count_diff, hc, List.count_append]
  omega

/-- What a step of the machine does to the ledger. -/
theorem LedgerInv.step {s : Ledger} {e : Event} {t : Traced} (h : LedgerInv s lost) (hok : ReadiesUnlisted s.machine e)
    (ht : tracedStep im e s.machine = some t) : ∃ m dropped, s.served e = some m ∧
      t.sys.kernel.freeList = m.heap.freeList ∧ ledgerStep im e s = some ⟨t, m.live⟩ ∧
      LedgerInv ⟨t, m.live⟩ (dropped ++ lost) ∧ (dropsNodes s.machine.sys e = false → dropped = []) := by
  obtain ⟨m, dropped, hm, hfree, hlive, hno⟩ := step_books h.traced h.books hok ht
  refine ⟨m, dropped, hm, hfree, ?_, ⟨h.traced.step hok ht, hlive⟩, hno⟩
  simp only [ledgerStep, ht, hm, Option.bind_eq_bind, Option.bind_some]

/-- Boot holds a stack and a node for the first process, and the same for the idle process. -/
def ledgerBoot : Ledger := ⟨tracedBoot, [0x24140, 0x220C0, 0x22090, 0x20010]⟩

theorem ledgerBoot_init : LedgerInit sampleImage ledgerBoot :=
  ⟨_, _, _, (Option.some_get sampleBoot).symm, by decide +kernel⟩

/-- A process ends that a sleep list still holds. It is woken once more and
ends again, and `kfree` is called with its stack, which is 0 by then. -/
theorem kfree_not_held : ¬∀ im s e, Reach (ledgerStep im) (LedgerInit im) Any s →
    (tracedStep im e s.machine).isSome → (ledgerStep im e s).isSome := by
  intro hall
  have h0 : Reach (ledgerStep sampleImage) (LedgerInit sampleImage) Any ledgerBoot := .start ledgerBoot_init
  obtain ⟨s, hs, ht⟩ := h0.exec_any
    (call 0x10000 .SIGHANDLER [3, 0x4000, 0] ++ call 0x10000 .SLEEP [20] ++ call 0x11000 .KILL [1, 3] ++
      call 0x10000 .STOP [] ++ [.timer 0x11000 0, .timer 0x11000 0] ++ (call 0x10000 .STOP []).take 1)
    (fun s => (tracedStep sampleImage (.syscall 0x10000) s.machine).isSome &&
      !(ledgerStep sampleImage (.syscall 0x10000) s).isSome)
    (by decide +kernel)
  rw [Bool.and_eq_true, Bool.not_eq_true'] at ht
  rw [hall sampleImage s _ hs ht.1] at ht
  cases ht.2

end Xeros
