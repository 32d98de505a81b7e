import Xeros.PidMap.Fresh
import Xeros.Procs.FirstContext
import Xeros.Procs.Stacks
/-!
# Runs that leave the kernel's own memory alone

The headers of the allocator and the nodes of the pid map lie in the memory
that processes write. In a contained step nobody writes over them: a process
that is created has its first context inside its own block, no block is freed
directly below a free node that has a successor, and what processes write, and
the kernel for them, spares headers and nodes. So only the operations of the map
write a node (`nodes_kept`), and the map may be a value beside the memory.
-/

namespace Xeros

open Links Kernel Runs TreeNode

variable {im : Image} {A : Arena} {k k' : Kernel} {partner : Idx → Word} {f : Queue → List Idx} {p : Idx} {s : Sys}
  {e : Event} {m m' : MemSys}

/-! ## Contained steps -/

/-- The first context of a process with a stack of this size lies in its block. -/
def FrameFits (stack : Word) : Prop := -31 ≤ stack.toInt ∧ stack.toInt ≠ -16

instance (stack : Word) : Decidable (FrameFits stack) := inferInstanceAs (Decidable (_ ∧ _))

/-- No header and no node of the pid map is written over. -/
structure Spares (k k' : Kernel) : Prop where
  headers : KeepsHeaders ⟨k.toHeap, owned k⟩ k'.toHeap
  nodes : ∀ a ∈ k.pidMap.addrs, ∀ i < SIZEOF_TREENODE.toNat, k'.mem (a + BitVec.ofNat 32 i) = k.mem (a + BitVec.ofNat 32 i)

/-- The kernel when the allocator and the pid map have done what the event asks of them. -/
def allotted (im : Image) (s : Sys) (e : Event) : Option Kernel :=
  match trapped s e with
  | some (k, p, r) => granted im k p r
  | none => some s.kernel

structure Contained (im : Image) (s : Sys) (e : Event) : Prop where
  frame : ∀ k p, trapped s e = some (k, p, some .CREATE) → FrameFits (k.arg p 1)
  frees : ∀ k p r, trapped s e = some (k, p, r) → CallsOk (calls k p r) ⟨k.toHeap, owned k⟩
  spares : ∀ k s', allotted im s e = some k → step im e s = some s' → Spares k s'.kernel

/-- A contained step that makes nobody ready who is on a list. -/
def ContainedUnlisted (im : Image) (s : Traced) (e : Event) : Prop := ReadiesUnlisted s e ∧ Contained im s.sys e

/-- Nobody stops whose stack has been given back already: a process that stops
while it is on a list may be made ready once more. -/
def StopsOnce (s : Sys) (e : Event) : Prop := ∀ k p, trapped s e = some (k, p, some .STOP) → k.stack p ≠ 0

/-! ## What happens to a node -/

/-- A node that stays in the map has the same bytes. -/
def NodesKept (k k' : Kernel) : Prop := ∀ a ∈ k.pidMap.addrs, a ∈ k'.pidMap.addrs → ∀ i < SIZEOF_TREENODE.toNat,
  k'.mem (a + BitVec.ofNat 32 i) = k.mem (a + BitVec.ofNat 32 i)

/-- What the kernel owns are sound blocks, and each node of the map fills one. -/
structure Housed (A : Arena) (k : Kernel) : Prop where
  holds : Holds A ⟨k.toHeap, owned k⟩
  sized : NodesSized k (owned k)

theorem Housed.keep (hk : Housed A k) (howned : owned k' = owned k) (hkeep : KeepsBlocks k k') (hs : Spares k k') :
    Housed A k' ∧ NodesKept k k' := by
  refine ⟨⟨?_, fun a ha => ?_⟩, fun a ha _ => hs.nodes a ha⟩
  · rw [howned]
    exact hk.holds.keep hkeep.freeList hs.headers
  · rw [hkeep.pidMap] at ha
    obtain ⟨hown, hsize⟩ := hk.sized a ha
    rw [howned]
    exact ⟨hown, (hs.headers.held a hown _).trans hsize⟩

theorem owned_perm (k : Kernel) : (owned k).Perm (owned k ++ []) := by
  rw [List.append_nil]

/-- The bytes of a node lie in the words of its block. -/
theorem node_bytes {h h' : Heap} {a : Word} (ha : Aligned (hdrOf a)) (hsize : h.get (hdrOf a) .size = align16 SIZEOF_TREENODE)
    (hsame : ∀ c, Aligned c → InBlock h a c → ∀ g, h'.get c g = h.get c g) (hin : (hdrOf a).toNat + 48 ≤ 2 ^ 32)
    {i : Nat} (hi : i < SIZEOF_TREENODE.toNat) : h'.mem (a + BitVec.ofNat 32 i) = h.mem (a + BitVec.ofNat 32 i) := by
  have h20 : SIZEOF_TREENODE.toNat = 20 := rfl
  have h32 : (align16 SIZEOF_TREENODE).toNat = 32 := by decide
  have haddr : a.toNat = (hdrOf a).toNat + 16 := by
    simp only [hdrOf, SIZEOF_MEMHEADER] at hin ⊢
    bv_omega
  unfold Aligned at ha
  -- the sixteen bytes around byte `i`, and the word of them that has it
  have hword (c : Word) (g : HdrField) (hc : c.toNat = a.toNat + i / 16 * 16) (hg : g.offset.toNat = i % 16 / 4 * 4) :
      h'.mem (a + BitVec.ofNat 32 i) = h.mem (a + BitVec.ofNat 32 i) := by
    have hget := hsame c (by unfold Aligned; omega) ?_ g
    · exact Mem.load32_inj hget (by bv_omega)
    · simp only [InBlock, Xeros.extent, hsize, h32]
      omega
  have hoff : i % 16 / 4 * 4 = 0 ∨ i % 16 / 4 * 4 = 4 ∨ i % 16 / 4 * 4 = 8 ∨ i % 16 / 4 * 4 = 12 := by omega
  have hc : (a + BitVec.ofNat 32 (i / 16 * 16)).toNat = a.toNat + i / 16 * 16 := by bv_omega
  rcases hoff with e | e | e | e
  · exact hword _ .size hc e.symm
  · exact hword _ .prev hc e.symm
  · exact hword _ .next hc e.symm
  · exact hword _ .sanityCheck hc e.symm

/-- Calls of the allocator leave the nodes alone that they do not free. -/
theorem Housed.served {calls : List MemEvent} {a : Word} (hk : Housed A k) (hok : CallsOk calls ⟨k.toHeap, owned k⟩)
    (hs : MemSys.serve calls ⟨k.toHeap, owned k⟩ = some m) (ha : a ∈ k.pidMap.addrs) (hfree : .kfree a ∉ calls)
    (hwrite : ∀ x c, .write x c ∉ calls) :
    m.heap.get (hdrOf a) .size = align16 SIZEOF_TREENODE ∧
      ∀ i < SIZEOF_TREENODE.toNat, m.heap.mem (a + BitVec.ofNat 32 i) = k.mem (a + BitVec.ofNat 32 i) := by
  obtain ⟨hown, hsize⟩ := hk.sized a ha
  obtain ⟨-, hsame⟩ := hk.holds.serve_same hok hs hown hfree hwrite
  have hal := hk.holds.aligned_hdrOf hown
  refine ⟨(hsame _ hal (inBlock_hdrOf ..) _).trans hsize, fun i hi => ?_⟩
  refine node_bytes (h := k.toHeap) hal hsize hsame ?_ hi
  obtain ⟨free, live, hr, hl⟩ := hk.holds
  have hmem : a ∈ live.map fun b => dataStart b.addr := hl ▸ hown
  obtain ⟨b, hb, rfl⟩ := List.mem_map.1 hmem
  have hbelow := hr.below (b := b) (by simp [hb])
  have h32 : (align16 SIZEOF_TREENODE).toNat = 32 := by decide
  rw [hdrOf_dataStart, hr.size b (by simp [hb])] at hsize
  rw [hdrOf_dataStart]
  rw [hsize] at hbelow
  omega

/-- `create` gives back only what it has just got. -/
theorem createCalls_fresh {stack a : Word} {held : List Word} (h : Holds A ⟨k.toHeap, held⟩) (ha : a ∈ held) :
    .kfree a ∉ createCalls k stack := by
  unfold createCalls
  cases hk : kmalloc k.toHeap (blockSize stack) with
  | none => simp
  | some x =>
    obtain ⟨ptr, h1⟩ := x
    by_cases hptr : ptr = 0
    · simp [hptr]
    have h1' := h.kmalloced hk hptr
    have hne : ptr ≠ a := by
      rintro rfl
      exact (List.nodup_cons.1 h1'.nodup).1 ha
    simp only [if_neg hptr]
    split
    · simp
    · simp [hne.symm]

theorem createCalls_writes (k : Kernel) (stack : Word) (x : Word) (c : Byte) : .write x c ∉ createCalls k stack := by
  unfold createCalls
  split
  · simp
  · split
    · simp
    · split
      · simp
      · simp

/-- The first context of a stack of this size is in its block. -/
theorem FrameFits.outside {stack ptr size x : Word} (hf : FrameFits stack) (hpos : 0 < (blockSize stack).toInt)
    (hsize : size = align16 (blockSize stack)) (hx : ¬x - ptr < size) : 48 ≤ (x - (ptr + align16 stack)).toNat := by
  have hle : size.toNat ≤ 2 ^ 31 := by
    rw [hsize, align16_toNat hpos]
    have := (toInt_pos.1 hpos).2
    unfold roundUp
    omega
  have hin : ContextInside (ptr + align16 stack) ptr size :=
    (contextInside_iff hle).2 (hsize ▸ (align16_inside_iff hpos).2 hf)
  by_contra hlt
  exact hx (hin x (Nat.lt_of_not_le hlt))

/-- A byte of one block is not in the payload of another. -/
theorem Holds.not_inPayload {p q x : Word} (hm : Holds A m) (hp : p ∈ m.live) (hq : q ∈ m.live) (hne : p ≠ q)
    (hx : InPayload m.heap p x) : ¬InPayload m.heap q x := by
  obtain ⟨free, live, hr, hl⟩ := hm
  rw [hl] at hp hq
  obtain ⟨b, hb, rfl⟩ := List.mem_map.1 hp
  obtain ⟨c, hc, rfl⟩ := List.mem_map.1 hq
  have hbc : b.addr ≠ c.addr := by
    intro e
    exact hne (by rw [e])
  have hap := hr.apart (b := b) (c := c) (by simp [hb]) (by simp [hc]) hbc
  have hbb := hr.below (b := b) (by simp [hb])
  have hcb := hr.below (b := c) (by simp [hc])
  simp only [InPayload, hdrOf_dataStart, hr.size b (by simp [hb]), hr.size c (by simp [hc])] at hx ⊢
  simp only [Span.Apart, Block.span] at hap
  simp only [dataStart, SIZEOF_MEMHEADER] at hx ⊢
  bv_omega

/-- A new process leaves the nodes alone that were there. -/
theorem Creates.nodesKept {func stack parent r ptr : Word} (hcr : Creates im k k' m (owned k) p r func stack parent ptr)
    (hk : Housed A k) (hf : FrameFits stack) (hok : CallsOk (createCalls k stack) ⟨k.toHeap, owned k⟩)
    (hs : MemSys.serve (createCalls k stack) ⟨k.toHeap, owned k⟩ = some m) : Housed A k' ∧ NodesKept k k' := by
  obtain ⟨h1, hk1, hptr, -, a, -, -, hlive⟩ := hcr.inserted
  have hm : Holds A m := hk.holds.serve hok hs
  have hm1 := hk.holds.kmalloced hk1 hptr
  obtain ⟨hheld, hpos, hsize⟩ := hcr.stack_block hk.holds
  obtain ⟨hout, hkeeps⟩ := hcr.keeps hm hheld fun x hx => hf.outside hpos hsize hx
  refine ⟨⟨?_, ?_⟩, fun b hb _ i hi => ?_⟩
  · obtain ⟨dropped, hbooks, -⟩ := hcr.books (owned_perm k)
    rw [List.append_nil] at hbooks
    have h' : Holds A ⟨k'.toHeap, m.live⟩ := hm.keep (by rw [hcr.heap]) hkeeps
    exact h'.subperm ((List.sublist_append_left _ _).subperm.trans hbooks.symm.subperm)
  · intro b hb
    obtain ⟨-, hsize⟩ := hcr.sized hk.holds hk.sized hkeeps b hb
    exact ⟨List.mem_append_right _ hb, hsize⟩
  · obtain ⟨hown, -⟩ := hk.sized b hb
    obtain ⟨hbsize, hbytes⟩ := hk.served hok hs hb (createCalls_fresh hk.holds hown) (createCalls_writes k stack)
    rw [← hbytes i hi]
    have hbheld : b ∈ m.live := by
      rw [hlive]
      simp [hown]
    have hne : b ≠ ptr := by
      rintro rfl
      exact (List.nodup_cons.1 hm1.nodup).1 hown
    refine hout _ (hm.not_inPayload hbheld hheld hne ?_)
    have h20 : SIZEOF_TREENODE.toNat = 20 := rfl
    have h32 : (align16 SIZEOF_TREENODE).toNat = 32 := by decide
    rw [InPayload, hbsize]
    bv_omega

/-- What `kfree` calls give back is not held afterwards. -/
theorem serve_freed {calls : List MemEvent} {a : Word} (hcalls : ∀ e ∈ calls, ∃ ptr, e = .kfree ptr) (hn : m.live.Nodup)
    (hs : MemSys.serve calls m = some m') : m'.live.Sublist m.live ∧ (.kfree a ∈ calls → a ∉ m'.live) := by
  induction calls generalizing m with
  | nil =>
    cases hs
    exact ⟨List.Sublist.refl _, fun h => absurd h List.not_mem_nil⟩
  | cons e calls ih =>
    obtain ⟨ptr, rfl⟩ := hcalls e List.mem_cons_self
    rw [MemSys.serve_cons] at hs
    obtain ⟨m1, h1, hs⟩ := Option.bind_eq_some_iff.1 hs
    obtain ⟨-, h, -, rfl⟩ := MemSys.step_kfree h1
    obtain ⟨hsub, hfreed⟩ := ih (fun e he => hcalls e (List.mem_cons_of_mem _ he)) (hn.erase ptr) hs
    refine ⟨hsub.trans List.erase_sublist, fun ha => ?_⟩
    rcases List.mem_cons.1 ha with ha | ha
    · cases ha
      exact fun h => hn.not_mem_erase (hsub.subset h)
    · exact hfreed ha

theorem cleanupCalls_kfrees (k : Kernel) (p : Idx) : ∀ e ∈ cleanupCalls k p, ∃ ptr, e = .kfree ptr := by
  intro e he
  unfold cleanupCalls at he
  rcases List.mem_cons.1 he with rfl | he
  · exact ⟨_, rfl⟩
  · rw [Option.mem_toList, Option.map_eq_some_iff] at he
    obtain ⟨a, -, rfl⟩ := he
    exact ⟨a, rfl⟩

/-- The end of a process leaves the nodes of the others alone. -/
theorem freed_nodesKept (hk : Housed A k) (hok : CallsOk (cleanupCalls k p) ⟨k.toHeap, owned k⟩)
    (hs : ∃ m, MemSys.serve (cleanupCalls k p) ⟨k.toHeap, owned k⟩ = some m ∧ k'.toHeap = m.heap ∧
      m.live.Perm (owned k' ++ []) ∧ k'.pidMap.addrs.Subperm k.pidMap.addrs) : Housed A k' ∧ NodesKept k k' := by
  obtain ⟨m, hs, hheap, hlive, hsub⟩ := hs
  rw [List.append_nil] at hlive
  have hm : Holds A m := hk.holds.serve hok hs
  have hkept : ∀ a ∈ k'.pidMap.addrs, m.heap.get (hdrOf a) .size = align16 SIZEOF_TREENODE ∧
      ∀ i < SIZEOF_TREENODE.toNat, m.heap.mem (a + BitVec.ofNat 32 i) = k.mem (a + BitVec.ofNat 32 i) := by
    intro a ha
    have hheld : a ∈ m.live := hlive.symm.subset (List.mem_append_right _ ha)
    refine hk.served hok hs (hsub.subset ha) (fun hfree => ?_) (fun x c hw => ?_)
    · exact (serve_freed (cleanupCalls_kfrees k p) hk.holds.nodup hs).2 hfree hheld
    · obtain ⟨ptr, e⟩ := cleanupCalls_kfrees k p _ hw
      cases e
  refine ⟨⟨?_, fun a ha => ⟨List.mem_append_right _ ha, ?_⟩⟩, fun a _ ha i hi => ?_⟩
  · rw [hheap]
    exact hm.perm hlive
  · rw [hheap]
    exact (hkept a ha).1
  · rw [hheap]
    exact (hkept a ha).2 i hi

/-- A creation leaves the nodes alone that were there. -/
theorem create_nodesKept {func stack parent r : Word} (hk : Housed A k) (hf : FrameFits stack)
    (hok : CallsOk (createCalls k stack) ⟨k.toHeap, owned k⟩) (hc : create im k func stack parent = some (r, k')) :
    Housed A k' ∧ NodesKept k k' := by
  obtain ⟨m, hs, ⟨e, hlive⟩ | ⟨q, ptr, hcr⟩⟩ := create_serves (owned k) hc
  · have hm : Holds A m := hk.holds.serve hok hs
    have hserved : ∀ a ∈ k.pidMap.addrs, m.heap.get (hdrOf a) .size = align16 SIZEOF_TREENODE ∧
        ∀ i < SIZEOF_TREENODE.toNat, m.heap.mem (a + BitVec.ofNat 32 i) = k.mem (a + BitVec.ofNat 32 i) := by
      intro a ha
      exact hk.served hok hs ha (createCalls_fresh hk.holds (hk.sized a ha).1) (createCalls_writes k stack)
    subst e
    refine ⟨⟨?_, fun a ha => ⟨(hk.sized a ha).1, (hserved a ha).1⟩⟩, fun a ha _ => (hserved a ha).2⟩
    change Holds A ⟨m.heap, owned k⟩
    rw [← hlive]
    exact hm
  · exact hcr.nodesKept hk hf hok hs

/-- What the allocator and the map do for a request leaves the other nodes alone. -/
theorem granted_nodesKept {r : Option Request} (hk : Housed A k) (h : Sound k partner f) (hp : Runs k p)
    (hf : r = some .CREATE → FrameFits (k.arg p 1)) (hok : CallsOk (calls k p r) ⟨k.toHeap, owned k⟩)
    (hg : granted im k p r = some k') : Housed A k' ∧ NodesKept k k' := by
  by_cases hc : r = some .CREATE
  · subst hc
    obtain ⟨⟨pid, k1⟩, hc, e⟩ := Option.map_eq_some_iff.1 hg
    cases e
    exact create_nodesKept hk (hf rfl) hok hc
  by_cases hs : r = some .STOP
  · subst hs
    exact freed_nodesKept hk hok (cleanup_serves h hp.1 (owned_perm k) hg)
  have hnone : granted im k p r = some k := by
    cases r with
    | none => rfl
    | some x =>
      cases x with
      | CREATE => exact absurd rfl hc
      | STOP => exact absurd rfl hs
      | _ => rfl
  rw [hnone] at hg
  cases hg
  exact ⟨hk, fun _ _ _ _ _ => rfl⟩

/-- A contained step writes no node that stays in the map. -/
theorem step_nodesKept {s t : Traced} (h : TracedInv s) (hk : Housed A s.sys.kernel) (hok : ContainedUnlisted im s e)
    (ht : tracedStep im e s = some t) : Housed A t.sys.kernel ∧ NodesKept s.sys.kernel t.sys.kernel := by
  obtain ⟨hunlisted, hcont⟩ := hok
  have hstep : step im e s.sys = some t.sys := by
    obtain ⟨sys, hs, ht⟩ := Option.bind_eq_some_iff.1 ht
    cases ht
    exact hs
  have hquiet (htr : trapped s.sys e = none) (hsame : SameInUse s.sys.kernel t.sys.kernel)
      (hkeep : KeepsBlocks s.sys.kernel t.sys.kernel) :
      Housed A t.sys.kernel ∧ NodesKept s.sys.kernel t.sys.kernel := by
    have hal : allotted im s.sys e = some s.sys.kernel := by
      unfold allotted
      rw [htr]
    exact hk.keep (owned_keep hsame hkeep) hkeep (hcont.spares _ _ hal hstep)
  rcases tracedStep_cases ht with ⟨g, rfl, rfl⟩ | ⟨codes, k, tt, rfl, hl, rfl⟩ | ⟨k, p, r, sys, htr, hd, rfl⟩
  · exact hquiet rfl (.of_eq rfl) ⟨rfl, rfl, rfl⟩
  · have hkeep : KeepsBlocks s.sys.kernel k := by
      rw [keyboard_lower_eq hl]
      exact ⟨rfl, rfl, rfl⟩
    exact hquiet rfl (.keyboard_lower hunlisted hl) hkeep
  -- a trap: what is granted, and the rest of the turn
  obtain ⟨howned, hheap⟩ := owned_trapped htr
  have hmap : k.pidMap = s.sys.kernel.pidMap := by rw [trapped_eq htr]
  have hk' : Housed A k := by
    refine ⟨?_, ?_⟩
    · rw [howned, hheap]
      exact hk.holds
    · rw [NodesSized, howned, hmap, hheap]
      exact hk.sized
  obtain ⟨⟨f, hf⟩, hp⟩ := h.at_trap htr
  have hreq : ∀ x, r = some x → RequestOk k s.partner p x := by
    intro x hx
    subst hx
    exact hunlisted.request htr
  obtain ⟨k1, hg, howned1, hkeep⟩ := turn_granted hf hp hreq hd
  have hframe : r = some .CREATE → FrameFits (k.arg p 1) := by
    rintro rfl
    exact hcont.frame k p htr
  obtain ⟨hk1, hkept⟩ := granted_nodesKept hk' hf hp hframe (hcont.frees k p r htr) hg
  have hal : allotted im s.sys e = some k1 := by
    unfold allotted
    rw [htr]
    exact hg
  obtain ⟨hk2, hkept2⟩ := hk1.keep howned1 hkeep (hcont.spares _ _ hal hstep)
  refine ⟨hk2, fun a ha ha' i hi => ?_⟩
  have ha1 : a ∈ k1.pidMap.addrs := by
    rw [← hkeep.pidMap]
    exact ha'
  have h1 := hkept a (by rw [hmap]; exact ha) ha1 i hi
  have h2 := hkept2 a ha1 ha' i hi
  have hmem : k.mem = s.sys.kernel.mem := congrArg Heap.mem hheap
  rw [← hmem]
  exact h2.trans h1

/-! ## Checking a run -/

def sparesBlocks (k k' : Kernel) : Bool :=
  keepsHeaders ⟨k.toHeap, owned k⟩ k'.toHeap && k.pidMap.addrs.all fun a =>
    (List.range 20).all fun i => decide (k'.mem (a + BitVec.ofNat 32 i) = k.mem (a + BitVec.ofNat 32 i))

theorem sparesBlocks_ok (h : sparesBlocks k k' = true) : Spares k k' := by
  rw [sparesBlocks, Bool.and_eq_true] at h
  refine ⟨keepsHeaders_ok h.1, fun a ha i hi => ?_⟩
  exact of_decide_eq_true (List.all_eq_true.1 (List.all_eq_true.1 h.2 a ha) i (List.mem_range.2 hi))

/-- The size of the stack that the event asks for, if it is a `CREATE`. -/
def frameFits (s : Sys) (e : Event) : Bool :=
  match trapped s e with
  | some (k, p, some .CREATE) => decide (FrameFits (k.arg p 1))
  | _ => true

/-- A step that can be seen to be contained. -/
def containedEvent (im : Image) (s : Sys) (e : Event) : Bool :=
  frameFits s e && ((trapped s e).all fun x => callsOk (calls x.1 x.2.1 x.2.2) ⟨x.1.toHeap, owned x.1⟩) &&
    (allotted im s e).all fun k => (step im e s).all fun s' => sparesBlocks k s'.kernel

theorem containedEvent_ok (h : containedEvent im s e = true) : Contained im s e := by
  rw [containedEvent, Bool.and_eq_true, Bool.and_eq_true] at h
  obtain ⟨⟨hframe, hcalls⟩, hspares⟩ := h
  refine ⟨fun k p htr => ?_, fun k p r htr => ?_, fun k s' hk hs => ?_⟩
  · rw [frameFits, htr] at hframe
    exact of_decide_eq_true hframe
  · rw [htr] at hcalls
    exact callsOk_ok hcalls
  · rw [hk, Option.all_some, hs, Option.all_some] at hspares
    exact sparesBlocks_ok hspares

def stopsOnce (s : Sys) (e : Event) : Bool :=
  match trapped s e with
  | some (k, p, some .STOP) => decide (k.stack p ≠ 0)
  | _ => true

theorem stopsOnce_ok (h : stopsOnce s e = true) : StopsOnce s e := by
  intro k p htr
  rw [stopsOnce, htr] at h
  exact of_decide_eq_true h

def plainContained (im : Image) (s : Traced) (e : Event) : Bool := plainEvent s e && containedEvent im s.sys e

theorem plainContained_ok {s : Traced} (h : plainContained im s e = true) : ContainedUnlisted im s e := by
  rw [plainContained, Bool.and_eq_true] at h
  exact ⟨plainEvent_ok h.1, containedEvent_ok h.2⟩

/-- Process 0 creates a process, which lets it run on, and then another. -/
def sampleCreations : List Event :=
  call 0x21f00 .CREATE [0x7000, 0x1000] ++ call 0x25000 .YIELD [] ++ call 0x21f00 .CREATE [0x7000, 0x1000]

/-! ## Results -/

/-- In every contained run in which only processes on no list are made ready,
the bytes of a node are left alone as long as it is in the map, but for what the
operations of the map write there. -/
theorem nodes_kept (hF : (align16 im.freemem).toNat < HOLESTART.toNat) {s t : Traced}
    (hs : Reach (tracedStep im) (TracedInit im) (ContainedUnlisted im) s) (hok : ContainedUnlisted im s e)
    (ht : tracedStep im e s = some t) : NodesKept s.sys.kernel t.sys.kernel := by
  have h : TracedInv s ∧ Housed (arena im.freemem hF) s.sys.kernel := by
    refine hs.inv (fun s => TracedInv s ∧ Housed (arena im.freemem hF) s.sys.kernel) ?_ ?_
    · rintro s ⟨mem, root, idleproc, hb⟩
      obtain ⟨m, hm, -, hlive⟩ := boot_books hb
      obtain ⟨hholds, hsized⟩ := boot_holds hF hb hm
      refine ⟨(TracedInv.boot hb).1, hholds.perm hlive, fun a ha => ⟨List.mem_append_right _ ha, (hsized a ha).2⟩⟩
    · rintro s e s' ⟨h, hk⟩ hok ht
      exact ⟨h.step hok.1 ht, (step_nodesKept h hk hok ht).1⟩
  exact (step_nodesKept h.1 h.2 hok ht).2

/-- In every contained run in which only processes on no list are made ready,
every process but the running one is queued exactly where its state says. -/
theorem processes_in_place {s : Traced} (hs : Reach (tracedStep im) (TracedInit im) (ContainedUnlisted im) s) :
    InPlace s :=
  traced_in_place (hs.mono fun _ _ h => h.1)

/-- Process 0 waits for the idle process to receive. -/
theorem processes_in_place_send : ∃ s,
    Reach (tracedStep sampleImage) (TracedInit sampleImage) (ContainedUnlisted sampleImage) s ∧
    s.sys.kernel.state 0 = .SENDING ∧ InPlace s := by
  have h0 : Reach (tracedStep sampleImage) (TracedInit sampleImage) (ContainedUnlisted sampleImage) tracedBoot :=
    .start tracedBoot_init
  obtain ⟨s, hs, ht⟩ := h0.exec_ok (plainContained sampleImage) (fun _ _ => plainContained_ok)
    (call 0x21f00 .CREATE [0x7000, 0x1000] ++ call 0x25000 .YIELD [] ++ call 0x21f00 .SEND [2])
    (fun s => decide (s.sys.kernel.state 0 = .SENDING)) (by decide +kernel)
  exact ⟨s, hs, of_decide_eq_true ht, processes_in_place hs⟩

/-- In every contained run in which nobody stops twice, and until the counter
wraps, the processes created since boot have got consecutive pids; each pid
leads to the PCB it was given with or nowhere, also after its process has ended;
and no two PCBs have the same pid. -/
theorem pids_never_reused {s : Registry}
    (hs : Reach (registryStep im) (RegistryInit im) (fun s e => Contained im s.sys e ∧ StopsOnce s.sys e) s)
    (hlt : s.first.toNat + s.given.length < SYSERR.toNat) : PidsFresh s := by
  have h : RegistryInv s := by
    induction hs with
    | start hi => exact .of_init hi
    | @next s e s' _ _ ht ih =>
      refine (ih ?_).step hlt ht
      obtain ⟨sys, -, ht⟩ := Option.bind_eq_some_iff.1 ht
      cases ht
      simp only [List.length_append] at hlt
      omega
  exact h.fresh

/-- Two processes are created and one stops, and another gets its PCB, but not its pid. -/
theorem pids_never_reused_pcb : ∃ s, s.given = [(3, 2), (4, 3), (5, 2)] ∧ PidsFresh s := by
  have h0 : Reach (registryStep sampleImage) (RegistryInit sampleImage)
      (fun s e => Contained sampleImage s.sys e ∧ StopsOnce s.sys e) registryBoot := .start registryBoot_init
  have htest : ∀ (s : Registry) (e : Event), (containedEvent sampleImage s.sys e && stopsOnce s.sys e) = true →
      Contained sampleImage s.sys e ∧ StopsOnce s.sys e := by
    intro s e h
    rw [Bool.and_eq_true] at h
    exact ⟨containedEvent_ok h.1, stopsOnce_ok h.2⟩
  obtain ⟨s, hs, ht⟩ := h0.exec_ok _ htest
    (sampleCreations ++ call 0x25000 .STOP [] ++ call 0x26000 .YIELD [] ++ call 0x21f00 .CREATE [0x7000, 0x1000])
    (fun s => decide (s.given = [(3, 2), (4, 3), (5, 2)] ∧ s.first.toNat + s.given.length < SYSERR.toNat))
    (by decide +kernel)
  obtain ⟨hgiven, hlt⟩ := of_decide_eq_true ht
  exact ⟨s, hgiven, pids_never_reused hs hlt⟩

/-- In every contained run in which only processes on no list are made ready,
the kernel holds what it can get at and what has leaked. A step only frees what
is held, what has leaked stays leaked, and nothing leaks but in a creation that
turns the pid map to the right. -/
theorem memory_accounted {s : Ledger} {t : Traced}
    (hs : Reach (ledgerStep im) (LedgerInit im) (fun s e => ContainedUnlisted im s.machine e) s)
    (hok : ContainedUnlisted im s.machine e) (ht : tracedStep im e s.machine = some t) :
    s.held.Perm (owned s.machine.sys.kernel ++ s.leaked) ∧
    ∃ s' m, ledgerStep im e s = some s' ∧ s'.machine = t ∧ s.served e = some m ∧
      t.sys.kernel.freeList = m.heap.freeList ∧ s.leaked.Subperm s'.leaked ∧
      (dropsNodes s.machine.sys e = false → s'.leaked.Perm s.leaked) := by
  obtain ⟨lost, h⟩ : ∃ lost, LedgerInv s lost := by
    refine hs.inv (fun s => ∃ lost, LedgerInv s lost) (fun s h0 => ⟨[], .boot h0⟩) ?_
    rintro s e s' ⟨lost, h⟩ hok hstep
    obtain ⟨t, ht, -⟩ := Option.bind_eq_some_iff.1 hstep
    obtain ⟨m, dropped, -, -, hstep', h', -⟩ := h.step hok.1 ht
    rw [hstep] at hstep'
    cases hstep'
    exact ⟨_, h'⟩
  obtain ⟨m, dropped, hm, hfree, hstep, h', hno⟩ := h.step hok.1 ht
  refine ⟨h.books.trans (h.leaked.symm.append_left _), ⟨t, m.live⟩, m, hstep, rfl, hm, hfree, ?_, fun hd => ?_⟩
  · have hsub : lost.Subperm (dropped ++ lost) := (List.sublist_append_right dropped lost).subperm
    exact (h.leaked.subperm.trans hsub).trans h'.leaked.symm.subperm
  · rw [hno hd] at h'
    exact h'.leaked.trans h.leaked.symm

/-- Four processes hold eight blocks, and one of them is about to stop. -/
theorem memory_accounted_stop : ∃ (s : Ledger) (t : Traced),
    tracedStep sampleImage (.syscall 0x25000) s.machine = some t ∧ s.held.length = 8 ∧
    (∃ s' m, ledgerStep sampleImage (.syscall 0x25000) s = some s' ∧ s'.machine = t ∧
      s.served (.syscall 0x25000) = some m ∧ t.sys.kernel.freeList = m.heap.freeList ∧ s.leaked.Subperm s'.leaked) := by
  have h0 : Reach (ledgerStep sampleImage) (LedgerInit sampleImage)
      (fun s e => ContainedUnlisted sampleImage s.machine e) ledgerBoot := .start ledgerBoot_init
  obtain ⟨s, hs, ht⟩ := h0.exec_ok (fun s e => plainContained sampleImage s.machine e) (fun _ _ => plainContained_ok)
    (sampleCreations ++ (call 0x25000 .STOP []).take 1)
    (fun s => decide (s.held.length = 8) && plainContained sampleImage s.machine (.syscall 0x25000) &&
      (tracedStep sampleImage (.syscall 0x25000) s.machine).isSome) (by decide +kernel)
  simp only [Bool.and_eq_true, decide_eq_true_eq] at ht
  obtain ⟨⟨hlen, hok⟩, hstep⟩ := ht
  obtain ⟨t, ht⟩ := Option.isSome_iff_exists.1 hstep
  obtain ⟨-, s', m, hl, hm, hserved, hfree, hsub, -⟩ := memory_accounted hs (plainContained_ok hok) ht
  exact ⟨s, t, ht, hlen, s', m, hl, hm, hserved, hfree, hsub⟩

/-- In every contained run in which only processes on no list are made ready and
no creation turns the pid map to the right, the kernel holds one stack for each
process in use and the nodes of the map. -/
theorem nothing_leaks {s : Ledger} (hs : Reach (ledgerStep im) (LedgerInit im)
    (fun s e => ContainedUnlisted im s.machine e ∧ dropsNodes s.machine.sys e = false) s) :
    s.held.Perm (owned s.machine.sys.kernel) := by
  have h : LedgerInv s [] := by
    refine hs.inv (fun s => LedgerInv s []) (fun s h0 => .boot h0) ?_
    rintro s e s' h ⟨hok, hno⟩ hstep
    obtain ⟨t, ht, -⟩ := Option.bind_eq_some_iff.1 hstep
    obtain ⟨m, dropped, -, -, hstep', h', hd⟩ := h.step hok.1 ht
    rw [hstep] at hstep'
    cases hstep'
    rw [hd hno] at h'
    exact h'
  have hb := h.books
  rwa [List.append_nil] at hb

/-- Two processes are created and the first of them stops. -/
theorem nothing_leaks_stop : ∃ s : Ledger, s.held.length = 6 ∧ s.machine.sys.kernel.nextPid = 5 ∧
    s.held.Perm (owned s.machine.sys.kernel) := by
  have h0 : Reach (ledgerStep sampleImage) (LedgerInit sampleImage)
      (fun s e => ContainedUnlisted sampleImage s.machine e ∧ dropsNodes s.machine.sys e = false) ledgerBoot :=
    .start ledgerBoot_init
  have htest : ∀ (s : Ledger) (e : Event), (plainContained sampleImage s.machine e && !dropsNodes s.machine.sys e) = true →
      ContainedUnlisted sampleImage s.machine e ∧ dropsNodes s.machine.sys e = false := by
    intro s e h
    rw [Bool.and_eq_true, Bool.not_eq_true'] at h
    exact ⟨plainContained_ok h.1, h.2⟩
  obtain ⟨s, hs, ht⟩ := h0.exec_ok _ htest
    (sampleCreations ++ call 0x25000 .STOP [])
    (fun s => decide (s.held.length = 6 ∧ s.machine.sys.kernel.nextPid = 5)) (by decide +kernel)
  obtain ⟨hlen, hpid⟩ := of_decide_eq_true ht
  exact ⟨s, hlen, hpid, nothing_leaks hs⟩

/-! ## The pid map and the PCB table -/

/-- No creation turns a subtree of the map to the right, and nobody writes over
a header or a node: a first context lies in its own block, and no block is freed
directly below a free node that has a successor. -/
def TableContained (k : Kernel) : TableEvent → Prop
  | .create _ stack _ => createTurnsRight k = false ∧ FrameFits stack ∧ CallsOk (createCalls k stack) ⟨k.toHeap, owned k⟩
  | .next => True
  | .stop p => CallsOk (cleanupCalls k p) ⟨k.toHeap, owned k⟩

def tableContained (k : Kernel) : TableEvent → Bool
  | .create _ stack _ =>
    !createTurnsRight k && decide (FrameFits stack) && callsOk (createCalls k stack) ⟨k.toHeap, owned k⟩
  | .next => true
  | .stop p => callsOk (cleanupCalls k p) ⟨k.toHeap, owned k⟩

theorem tableContained_ok {e : TableEvent} (h : tableContained k e = true) : TableContained k e := by
  cases e with
  | create func stack parent =>
    simp only [tableContained, Bool.and_eq_true, Bool.not_eq_true', decide_eq_true_eq] at h
    exact ⟨h.1.1, h.1.2, callsOk_ok h.2⟩
  | next => trivial
  | stop p => exact callsOk_ok h

theorem TableContained.noTurn {e : TableEvent} (h : TableContained k e) : NoRightTurnCreate k e := by
  cases e with
  | create func stack parent => exact h.1
  | next => trivial
  | stop p => trivial

/-- A process that nobody waits for ends. -/
theorem TableInv.serves (h : TableInv k) (hp : k.state p ≠ .STOPPED) (hc : cleanup keyboards k p = some k') :
    ∃ m, MemSys.serve (cleanupCalls k p) ⟨k.toHeap, owned k⟩ = some m ∧ k'.toHeap = m.heap ∧
      m.live.Perm (owned k' ++ []) ∧ k'.pidMap.addrs.Subperm k.pidMap.addrs := by
  obtain ⟨k1, h1, hc⟩ := Option.bind_eq_some_iff.1 hc
  obtain rfl : k = k1 := Option.some.inj ((drain_nil (q := .senders p) (h.senders p)).symm.trans h1)
  obtain ⟨k2, h2, hc⟩ := Option.bind_eq_some_iff.1 hc
  obtain rfl : k = k2 := Option.some.inj ((drain_nil (q := .receivers p) (h.receivers p)).symm.trans h2)
  rw [close_all_eq] at hc
  obtain ⟨h1, hfree, hc⟩ := Option.bind_eq_some_iff.1 hc
  obtain ⟨⟨t, h2⟩, hdel, hc⟩ := Option.bind_eq_some_iff.1 hc
  cases hc
  refine freed_serves hp (Function.update_self ..) (fun i hip => ?_) rfl (owned_perm k) hfree hdel
  simp only [Function.update_of_ne hip]

/-- A contained step writes no node that stays in the map. -/
theorem tableStep_nodesKept {e : TableEvent} (h : TableInv k) (hk : Housed A k) (hok : TableContained k e)
    (ht : tableStep im e k = some k') : Housed A k' ∧ NodesKept k k' := by
  cases e with
  | create func stack parent =>
    obtain ⟨⟨r, k1⟩, hc, ht⟩ := Option.bind_eq_some_iff.1 ht
    cases ht
    exact create_nodesKept hk hok.2.1 hok.2.2 hc
  | next =>
    cases ht
    rw [next_eq]
    exact ⟨⟨hk.holds, hk.sized⟩, fun _ _ _ _ _ => rfl⟩
  | stop p =>
    by_cases hp : k.state p = .STOPPED
    · simp only [tableStep, if_pos hp, reduceCtorEq] at ht
    · simp only [tableStep, if_neg hp] at ht
      exact freed_nodesKept hk hok (h.serves hp ht)

theorem table_nodes_kept (hF : (align16 im.freemem).toNat < HOLESTART.toNat) {e : TableEvent}
    (hs : Reach (tableStep im) (TableInit im) TableContained k) (hok : TableContained k e)
    (ht : tableStep im e k = some k') : NodesKept k k' := by
  have h : TableInv k ∧ Housed (arena im.freemem hF) k := by
    refine hs.inv (fun k => TableInv k ∧ Housed (arena im.freemem hF) k) ?_ ?_
    · rintro k ⟨m, rfl⟩
      refine ⟨TableInv.init im m, ⟨?_, fun a ha => absurd ha List.not_mem_nil⟩⟩
      rw [owned_init]
      exact holds_init hF ⟨m, rfl⟩
    · rintro k e k' ⟨h, hk⟩ hok ht
      exact ⟨h.step hok.noTurn ht, (tableStep_nodesKept h hk hok ht).1⟩
  exact (tableStep_nodesKept h.1 h.2 hok ht).2

/-- In every such run map and table agree. -/
theorem pids_agree {k : Kernel} (hk : Reach (tableStep im) (TableInit im) TableContained k) : PidsAgree k := by
  exact table_agrees (hk.mono fun _ _ h => h.noTurn)

theorem pids_agree_2_processes : ∃ k, Reach (tableStep sampleImage) (TableInit sampleImage) TableContained k ∧
    k.pid 0 = 3 ∧ k.pid 1 = 2 ∧ PidsAgree k := by
  have h0 : Reach (tableStep sampleImage) (TableInit sampleImage) TableContained _ := .start ⟨fun _ => 0, rfl⟩
  obtain ⟨k, hk, ht⟩ := h0.exec_ok tableContained (fun _ _ => tableContained_ok)
    [.create 0x1000 256 0, .create 0x1000 256 0, .next, .stop 0, .create 0x1000 256 0]
    (fun k => decide (k.pid 0 = 3 ∧ k.pid 1 = 2)) (by decide +kernel)
  obtain ⟨h1, h2⟩ := of_decide_eq_true ht
  exact ⟨k, hk, h1, h2, pids_agree hk⟩

end Xeros
