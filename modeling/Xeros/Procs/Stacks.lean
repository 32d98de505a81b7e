import Xeros.Procs.Ledger
/-!
# No two stacks overlap

The ledger and the allocator together: as long as nobody writes over a header
and no block is freed directly below a free node that has a successor, the
stacks of the processes in use and the nodes of the pid map are blocks that
meet neither each other nor a free node (`stacks_apart`).
-/

namespace Xeros

open Links Kernel Runs Span

variable {im : Image} {A : Arena} {k k' : Kernel} {p : Idx} {held : List Word} {m m' : MemSys} {ptr : Word}

/-! ## Memory changes -/

/-- No header of a block that is held or free is written over. -/
structure KeepsHeaders (m : MemSys) (h : Heap) : Prop where
  held : ∀ ptr ∈ m.live, ∀ g, h.get (hdrOf ptr) g = m.heap.get (hdrOf ptr) g
  free : ∀ n, FreeNode m.heap n → ∀ g, h.get n g = m.heap.get n g

theorem Holds.keep {h : Heap} (hm : Holds A m) (hf : h.freeList = m.heap.freeList) (hk : KeepsHeaders m h) :
    Holds A ⟨h, m.live⟩ := by
  obtain ⟨free, live, hr, hl⟩ := hm
  refine ⟨free, live, hr.congr hf fun b hb g => ?_, hl⟩
  rcases List.mem_append.1 hb with hb | hb
  · obtain ⟨xs, ys, rfl⟩ := List.append_of_mem hb
    exact hk.free b.addr hr.freeNode g
  · have hp : dataStart b.addr ∈ m.live := by
      rw [hl]
      exact List.mem_map_of_mem hb
    have he := hk.held _ hp g
    rwa [hdrOf_dataStart] at he

/-- Writing into a payload writes over no header. -/
theorem Holds.inside {mem : Mem} (hm : Holds A m) (hp : ptr ∈ m.live)
    (hout : ∀ x, ¬InPayload m.heap ptr x → mem x = m.heap.mem x) : KeepsHeaders m { m.heap with mem := mem } := by
  obtain ⟨free, live, hr, hl⟩ := hm
  rw [hl] at hp
  obtain ⟨b, hb, rfl⟩ := List.mem_map.1 hp
  have hsize : m.heap.get b.addr .size = b.size := hr.size b (by simp [hb])
  have hbb := hr.below (b := b) (by simp [hb])
  have hkeep : ∀ d ∈ free ++ live, ∀ g, ({ m.heap with mem := mem } : Heap).get d.addr g = m.heap.get d.addr g := by
    intro d hd g
    refine Mem.load32_congr fun x hx => hout x ?_
    rw [InPayload, hdrOf_dataStart, hsize]
    -- the word lies in the header of `d`
    have hdb := hr.below hd
    have hdis : d.addr = b.addr ∨ Apart d.span b.span := by
      by_cases e : d.addr = b.addr
      · exact .inl e
      · exact .inr (hr.apart hd (by simp [hb]) e)
    simp only [Apart, Block.span] at hdis
    simp only [dataStart, SIZEOF_MEMHEADER]
    cases g <;> simp only [HdrField.offset] at hx <;> bv_omega
  refine ⟨fun ptr hptr g => ?_, fun n hn g => ?_⟩
  · rw [hl] at hptr
    obtain ⟨d, hd, rfl⟩ := List.mem_map.1 hptr
    rw [hdrOf_dataStart]
    exact hkeep d (by simp [hd]) g
  · obtain ⟨d, hd, rfl⟩ := hr.mem_of_freeNode hn
    exact hkeep d (by simp [hd]) g

/-! ## Calls -/

/-- No call frees a block directly below a free node that has a successor. -/
def CallsOk : List MemEvent → MemSys → Prop
  | [], _ => True
  | e :: calls, m => NoFreeAbove m e ∧ ∀ m', MemSys.step e m = some m' → CallsOk calls m'

theorem Holds.serve {calls : List MemEvent} (hm : Holds A m) (hok : CallsOk calls m)
    (hs : MemSys.serve calls m = some m') : Holds A m' := by
  induction calls generalizing m with
  | nil =>
    cases hs
    exact hm
  | cons e calls ih =>
    rw [MemSys.serve_cons] at hs
    obtain ⟨m1, h1, hs⟩ := Option.bind_eq_some_iff.1 hs
    exact ih (hm.step hok.1 h1) (hok.2 m1 h1) hs

/-- A block that `kmalloc` hands out is held beside the others. -/
theorem Holds.kmalloced {size : Word} {h : Heap} (hm : Holds A m) (hk : Xeros.kmalloc m.heap size = some (ptr, h))
    (h0 : ptr ≠ 0) : Holds A ⟨h, ptr :: m.live⟩ := by
  refine hm.step (e := .kmalloc size) trivial ?_
  simp only [MemSys.step, hk, Option.bind_eq_bind, Option.bind_some, if_neg h0]

/-- A payload starts behind a header. -/
theorem Holds.aligned_hdrOf (hm : Holds A m) (hp : ptr ∈ m.live) : Aligned (hdrOf ptr) := by
  obtain ⟨free, live, hr, hl⟩ := hm
  rw [hl] at hp
  obtain ⟨b, -, rfl⟩ := List.mem_map.1 hp
  rw [hdrOf_dataStart]
  exact b.aligned

theorem inBlock_hdrOf (h : Heap) (ptr : Word) : InBlock h ptr (hdrOf ptr) := by
  simp only [InBlock, Xeros.extent]
  omega

/-- Calls that do not free `ptr` leave its block alone. -/
theorem Holds.serve_same {calls : List MemEvent} (hm : Holds A m) (hok : CallsOk calls m)
    (hs : MemSys.serve calls m = some m') (hp : ptr ∈ m.live) (hfree : .kfree ptr ∉ calls)
    (hwrite : ∀ a c, .write a c ∉ calls) :
    ptr ∈ m'.live ∧ ∀ c, Aligned c → InBlock m.heap ptr c → ∀ g, m'.heap.get c g = m.heap.get c g := by
  induction calls generalizing m with
  | nil =>
    cases hs
    exact ⟨hp, fun _ _ _ _ => rfl⟩
  | cons e calls ih =>
    rw [MemSys.serve_cons] at hs
    obtain ⟨m1, h1, hs⟩ := Option.bind_eq_some_iff.1 hs
    have hne : e ≠ .kfree ptr := fun he => hfree (by simp [he])
    have hnw : ∀ a c, e ≠ .write a c := fun a c he => hwrite a c (by simp [he])
    have hsame : ∀ c, Aligned c → InBlock m.heap ptr c → ∀ g, m1.heap.get c g = m.heap.get c g :=
      fun c hc hin g => hm.step_same hok.1 h1 hp hne hnw hc hin g
    have hsize := hsame (hdrOf ptr) (hm.aligned_hdrOf hp) (inBlock_hdrOf ..) .size
    have hp1 : ptr ∈ m1.live := by
      cases e with
      | kmalloc size =>
        obtain ⟨⟨q, h⟩, -, h1⟩ := Option.bind_eq_some_iff.1 h1
        cases h1
        change ptr ∈ if q = 0 then m.live else q :: m.live
        split
        · exact hp
        · exact List.mem_cons_of_mem _ hp
      | kfree q =>
        obtain ⟨-, h, -, rfl⟩ := MemSys.step_kfree h1
        refine (List.mem_erase_of_ne ?_).2 hp
        rintro rfl
        exact hne rfl
      | write a c => exact absurd rfl (hnw a c)
    obtain ⟨hp', hrest⟩ := ih (hm.step hok.1 h1) (hok.2 m1 h1) hs hp1 (fun h => hfree (List.mem_cons_of_mem _ h))
      (fun a c h => hwrite a c (List.mem_cons_of_mem _ h))
    refine ⟨hp', fun c hc hin g => ?_⟩
    have hin1 : InBlock m1.heap ptr c := by
      simp only [InBlock, Xeros.extent, hsize] at hin ⊢
      exact hin
    exact (hrest c hc hin1 g).trans (hsame c hc hin g)

/-- A `kmalloc` keeps the sizes of the blocks that are held. -/
theorem Holds.sizes {size : Word} {h : Heap} (hm : Holds A m) (hk : Xeros.kmalloc m.heap size = some (ptr, h)) :
    (∀ q ∈ m.live, h.get (hdrOf q) .size = m.heap.get (hdrOf q) .size) ∧
      (ptr ≠ 0 → h.get (hdrOf ptr) .size = align16 size) := by
  obtain ⟨free, live, hr, hl⟩ := hm
  rcases kmalloc_spec hr size with ⟨hk', -⟩ | ⟨xs, n, ys, rest, b, h', -, -, -, -, -, hbs, hk', hr'⟩
  · rw [hk] at hk'
    cases hk'
    exact ⟨fun _ _ => rfl, fun h0 => absurd rfl h0⟩
  · rw [hk] at hk'
    cases hk'
    refine ⟨fun q hq => ?_, fun _ => ?_⟩
    · rw [hl] at hq
      obtain ⟨c, hc, rfl⟩ := List.mem_map.1 hq
      rw [hdrOf_dataStart, hr.size c (by simp [hc]), hr'.size c (by simp [hc])]
    · rw [hdrOf_dataStart, hr'.size b (by simp), hbs]

/-- An event that makes nobody ready who is on a list, frees no block directly
below a free node that has a successor, and writes over no header. -/
structure Careful (im : Image) (s : Ledger) (e : Event) : Prop where
  unlisted : ReadiesUnlisted s.machine e
  calls : ∀ k p r, trapped s.machine.sys e = some (k, p, r) → CallsOk (calls k p r) ⟨k.toHeap, s.held⟩
  headers : ∀ m t, s.served e = some m → tracedStep im e s.machine = some t → KeepsHeaders m t.sys.kernel.toHeap

theorem Careful.holds {s : Ledger} {e : Event} {t : Traced} (hok : Careful im s e) (hs : s.served e = some m)
    (ht : tracedStep im e s.machine = some t) (hfree : t.sys.kernel.freeList = m.heap.freeList)
    (h : Holds A ⟨s.machine.sys.kernel.toHeap, s.held⟩) : Holds A ⟨t.sys.kernel.toHeap, m.live⟩ := by
  refine Holds.keep ?_ hfree (hok.headers m t hs ht)
  unfold Ledger.served at hs
  split at hs
  · cases hs
    exact h
  · next k p r htr =>
    rw [← (owned_trapped htr).2] at h
    exact h.serve (hok.calls k p r htr) hs

/-! ## Boot -/

/-- The first context of `i` fits into its stack block. -/
structure Roomy (k : Kernel) (held : List Word) (i : Idx) : Prop where
  held : k.stack i ∈ held
  room : ∃ stack : Word, 0 ≤ stack.toInt ∧ k.esp i = k.stack i + align16 stack ∧
    stack.toNat + 108 ≤ (k.get (hdrOf (k.stack i)) .size).toNat
  quiet : k.pending_sig i = 0

theorem Roomy.keep {i : Idx} {held' : List Word} (hr : Roomy k held i) (hheld : k.stack i ∈ held')
    (hst : k'.stack i = k.stack i) (hesp : k'.esp i = k.esp i) (hsig : k'.pending_sig i = k.pending_sig i)
    (hsize : k'.get (hdrOf (k.stack i)) .size = k.get (hdrOf (k.stack i)) .size) : Roomy k' held' i := by
  obtain ⟨-, ⟨stack, h0, htop, hroom⟩, hquiet⟩ := hr
  refine ⟨hst ▸ hheld, ⟨stack, h0, ?_, ?_⟩, hsig.trans hquiet⟩
  · rw [hesp, hst, htop]
  · rw [hst, hsize]
    exact hroom

/-- Calls of `kmalloc` keep the sizes of the blocks that are held. -/
theorem Holds.kmallocs {calls : List MemEvent} (hcalls : ∀ e ∈ calls, ∃ size, e = .kmalloc size) (hm : Holds A m)
    (hs : MemSys.serve calls m = some m') : Holds A m' ∧
      ∀ q ∈ m.live, q ∈ m'.live ∧ m'.heap.get (hdrOf q) .size = m.heap.get (hdrOf q) .size := by
  induction calls generalizing m with
  | nil =>
    cases hs
    exact ⟨hm, fun q hq => ⟨hq, rfl⟩⟩
  | cons e calls ih =>
    obtain ⟨size, rfl⟩ := hcalls e List.mem_cons_self
    rw [MemSys.serve_cons] at hs
    obtain ⟨m1, h1, hs⟩ := Option.bind_eq_some_iff.1 hs
    have hm1 : Holds A m1 := hm.step (e := .kmalloc size) trivial h1
    obtain ⟨hm', hkeep⟩ := ih (fun e he => hcalls e (List.mem_cons_of_mem _ he)) hm1 hs
    obtain ⟨⟨ptr, h⟩, hk, h1⟩ := Option.bind_eq_some_iff.1 h1
    cases h1
    refine ⟨hm', fun q hq => ?_⟩
    have hq1 : q ∈ (if ptr = 0 then m.live else ptr :: m.live) := by
      split
      · exact hq
      · exact List.mem_cons_of_mem _ hq
    obtain ⟨hq', hsize⟩ := hkeep q hq1
    exact ⟨hq', hsize.trans ((hm.sizes hk).1 q hq)⟩

theorem createCalls_kmallocs {stack : Word} (hfree : (firstStopped k).isSome) :
    ∀ e ∈ createCalls k stack, ∃ size, e = .kmalloc size := by
  intro e he
  unfold createCalls at he
  split at he
  · cases he
  · next ptr h hk =>
    rw [if_pos hfree] at he
    rcases List.mem_cons.1 he with rfl | he
    · exact ⟨_, rfl⟩
    · split at he
      · cases he
      · exact ⟨_, List.mem_singleton.1 he⟩

theorem kmalloc_pos {h h' : Heap} {size : Word} (hk : kmalloc h size = some (ptr, h')) (h0 : ptr ≠ 0) :
    0 < size.toInt := by
  unfold kmalloc at hk
  split at hk
  · cases hk
    exact absurd rfl h0
  · omega

/-- What is outside a stack block is not in the first context. -/
theorem outside_context {stack size x : Word} (hstack : 0 ≤ stack.toInt) (hsize : stack.toNat + 108 ≤ size.toNat)
    (hx : ¬x - ptr < size) : 48 ≤ (x - (ptr + align16 stack)).toNat := by
  have hup : (align16 stack).toNat ≤ stack.toNat + 15 := by
    rw [align16_toNat_of_nonneg hstack]
    unfold roundUp
    omega
  have hlt : stack.toNat < 2 ^ 31 := by
    rw [BitVec.toInt_eq_toNat_cond] at hstack
    omega
  bv_omega

/-- The nodes of the pid map are held, in blocks of the size that `insert` asks for. -/
def NodesSized (k : Kernel) (held : List Word) : Prop :=
  ∀ a ∈ k.pidMap.addrs, a ∈ held ∧ k.get (hdrOf a) .size = align16 SIZEOF_TREENODE

theorem Creates.sized {func stack parent r : Word} (hcr : Creates im k k' m held p r func stack parent ptr)
    (h : Holds A ⟨k.toHeap, held⟩) (hn : NodesSized k held) (hkeeps : KeepsHeaders m k'.toHeap) :
    NodesSized k' m.live := by
  obtain ⟨h1, hk1, hptr, -, a, hk2, ha, hlive⟩ := hcr.inserted
  have hm1 := h.kmalloced hk1 hptr
  obtain ⟨a', dropped, hlive', hperm, -⟩ := hcr.nodes
  obtain rfl : a = a' := by
    rw [hlive] at hlive'
    exact (List.cons.inj hlive').1
  intro b hb
  have hb' : b ∈ a :: k.pidMap.addrs := hperm.symm.subset (List.mem_append_left _ hb)
  have hheld : b ∈ m.live ∧ m.heap.get (hdrOf b) .size = align16 SIZEOF_TREENODE := by
    rw [hlive]
    rcases List.mem_cons.1 hb' with rfl | hb'
    · exact ⟨List.mem_cons_self, (hm1.sizes hk2).2 ha⟩
    · obtain ⟨hbh, hsize⟩ := hn b hb'
      refine ⟨by simp [hbh], ?_⟩
      rw [(hm1.sizes hk2).1 b (List.mem_cons_of_mem _ hbh), (h.sizes hk1).1 b hbh]
      exact hsize
  exact ⟨hheld.1, (hkeeps.held b hheld.1 _).trans hheld.2⟩

/-- The stack block of a new process. -/
theorem Creates.stack_block {func stack parent r : Word} (hcr : Creates im k k' m held p r func stack parent ptr)
    (h : Holds A ⟨k.toHeap, held⟩) :
    ptr ∈ m.live ∧ 0 < (blockSize stack).toInt ∧ m.heap.get (hdrOf ptr) .size = align16 (blockSize stack) := by
  obtain ⟨h1, hk1, hptr, -, a, hk2, ha, hlive⟩ := hcr.inserted
  refine ⟨?_, kmalloc_pos hk1 hptr, ?_⟩
  · rw [hlive]
    simp
  · rw [((h.kmalloced hk1 hptr).sizes hk2).1 ptr List.mem_cons_self, (h.sizes hk1).2 hptr]

/-- A first context that is in its block changes nothing outside. -/
theorem Creates.keeps {func stack parent r : Word} (hcr : Creates im k k' m held p r func stack parent ptr)
    (hm : Holds A m) (hheld : ptr ∈ m.live)
    (hout : ∀ x, ¬InPayload m.heap ptr x → 48 ≤ (x - (ptr + align16 stack)).toNat) :
    (∀ x, ¬InPayload m.heap ptr x → k'.mem x = m.heap.mem x) ∧ KeepsHeaders m k'.toHeap := by
  rw [hcr.heap]
  have hsame : ∀ x, ¬InPayload m.heap ptr x → first_context im m.heap.mem (ptr + align16 stack) func x = m.heap.mem x :=
    fun x hx => first_context_outside im _ (hout x hx)
  exact ⟨hsame, hm.inside hheld hsame⟩

/-- The first context of a new process is in its stack block. -/
theorem create_roomy {func stack parent r : Word} (hstack : 0 ≤ stack.toInt) (hfree : (firstStopped k).isSome)
    (h : Holds A ⟨k.toHeap, held⟩) (hroom : ∀ i, k.state i ≠ .STOPPED → Roomy k held i) (hn : NodesSized k held)
    (hc : create im k func stack parent = some (r, k')) :
    ∃ m, MemSys.serve (createCalls k stack) ⟨k.toHeap, held⟩ = some m ∧ Holds A ⟨k'.toHeap, m.live⟩ ∧
      (∀ i, k'.state i ≠ .STOPPED → Roomy k' m.live i) ∧ NodesSized k' m.live := by
  obtain ⟨m, hs, hcases⟩ := create_serves held hc
  obtain ⟨hm, hkeep⟩ := Holds.kmallocs (createCalls_kmallocs hfree) h hs
  refine ⟨m, hs, ?_⟩
  rcases hcases with ⟨e, -⟩ | ⟨p, ptr, hcr⟩
  · refine ⟨by rw [e]; exact hm, fun i hi => ?_, fun a ha => ?_⟩
    · rw [e] at hi ⊢
      have hr := hroom i hi
      obtain ⟨hheld, hsize⟩ := hkeep _ hr.held
      exact hr.keep hheld rfl rfl rfl hsize
    · rw [e] at ha ⊢
      obtain ⟨hah, hsize⟩ := hn a ha
      obtain ⟨hheld, hsize'⟩ := hkeep a hah
      exact ⟨hheld, hsize'.trans hsize⟩
  · obtain ⟨hheld, hpos, hsize⟩ := hcr.stack_block h
    have hroomy : stack.toNat + 108 ≤ (m.heap.get (hdrOf ptr) .size).toNat := by
      rw [hsize, align16_toNat hpos]
      exact le_roundUp_blockSize hstack
    obtain ⟨-, hkeeps⟩ := hcr.keeps hm hheld fun x hx => outside_context hstack hroomy hx
    refine ⟨hm.keep (by rw [hcr.heap]) hkeeps, fun i hi => ?_, hcr.sized h hn hkeeps⟩
    by_cases hip : i = p
    · subst hip
      have hst : k'.stack i = ptr := by rw [hcr.block, Function.update_self]
      refine ⟨hst ▸ hheld, ⟨stack, hstack, ?_, ?_⟩, ?_⟩
      · rw [hst, hcr.esp, Function.update_self]
      · rw [hst, hkeeps.held ptr hheld]
        exact hroomy
      · rw [hcr.pending, Function.update_self]
    · rw [hcr.inUse, Function.update_of_ne hip] at hi
      have hr := hroom i hi
      obtain ⟨hheld', hsize'⟩ := hkeep _ hr.held
      refine hr.keep hheld' ?_ ?_ ?_ ?_
      · rw [hcr.block, Function.update_of_ne hip]
      · rw [hcr.esp, Function.update_of_ne hip]
      · rw [hcr.pending, Function.update_of_ne hip]
      · exact (hkeeps.held _ hheld' _).trans hsize'

/-- The return value of a process that is resumed goes into its context. -/
theorem Roomy.resume {q : Idx} (hr : Roomy k held q) (h : Holds A ⟨k.toHeap, held⟩) :
    KeepsHeaders ⟨k.toHeap, held⟩ (Xeros.resume im k q).toHeap := by
  have hnone : deliver_signal im k q = k := by
    refine if_neg ?_
    rw [hr.quiet]
    simp
  have hheap : (Xeros.resume im k q).toHeap = { k.toHeap with mem := setFrame k.mem (k.esp q) .eax (k.irc q) } := by
    unfold Xeros.resume
    rw [hnone]
    rfl
  obtain ⟨stack, hstack, hesp, hsize⟩ := hr.room
  rw [hheap]
  refine h.inside hr.held fun x hx => ?_
  have hout := outside_context hstack hsize hx
  refine Mem.store32_outside _ _ _ _ ?_
  rw [hesp]
  simp only [FrameField.offset]
  bv_omega

/-- After boot the allocator is sound. -/
theorem boot_holds (hF : (align16 im.freemem).toNat < HOLESTART.toNat) {mem : Mem} {root idleproc : Word} {s : Sys}
    (hb : boot im mem root idleproc = some s) (hm : bootServed im mem root = some m) :
    Holds (arena im.freemem hF) ⟨s.kernel.toHeap, m.live⟩ ∧ NodesSized s.kernel m.live := by
  obtain ⟨pid1, k1, pid2, k2, idle, hc1, hc2, -, hend⟩ := boot_cases hb
  have hstopped : ∀ i, (init im mem).state i = .STOPPED := fun _ => rfl
  have hfree0 : (firstStopped (init im mem)).isSome := by
    rw [Option.isSome_iff_ne_none, ne_eq, firstStopped_none]
    exact fun hall => hall 0 (hstopped 0)
  have h0 : Holds (arena im.freemem hF) ⟨(init im mem).toHeap, []⟩ := holds_init hF ⟨mem, rfl⟩
  have hn0 : NodesSized (init im mem) [] := fun a ha => absurd ha List.not_mem_nil
  obtain ⟨m1, hs1, h1, hr1, hn1⟩ := create_roomy (by decide) hfree0 h0 (fun i hi => absurd (hstopped i) hi) hn0 hc1
  have hfree1 : (firstStopped k1).isSome := by
    rw [Option.isSome_iff_ne_none, ne_eq, firstStopped_none]
    intro hall
    obtain ⟨m1', -, ⟨e, -⟩ | ⟨p, ptr, hcr⟩⟩ := create_serves [] hc1
    · refine hall 0 ?_
      rw [e]
      exact hstopped 0
    · obtain ⟨i, hip⟩ : ∃ i : Idx, i ≠ p := exists_ne p
      refine hall i ?_
      rw [hcr.inUse, Function.update_of_ne hip]
      exact hstopped i
  obtain ⟨m2, hs2, h2, hr2, hn2⟩ := create_roomy (by decide) hfree1 h1 hr1 hn1 hc2
  have e : m = m2 := by
    simp only [bootServed, hs1, hc1, hs2, Option.bind_eq_bind, Option.bind_some, Option.some.injEq] at hm
    exact hm.symm
  subst e
  obtain ⟨⟨f1, hf1, -⟩, -⟩ := (Sound.init im mem fun _ => 0).create hc1
  obtain ⟨⟨f2, hf2, -⟩, -⟩ := hf1.create hc2
  have hf3 : Sound { k2 with idle := some idle } (fun _ => 0) f2 := ⟨hf2.queued, hf2.map⟩
  have hnext := next_eq { k2 with idle := some idle }
  rcases hend with ⟨-, rfl⟩ | ⟨q, hn, rfl⟩
  · rw [hnext]
    exact ⟨h2, hn2⟩
  · have hused := next_inUse hf3 hn
    have hr3 : Roomy (next { k2 with idle := some idle }).2 m.live q := by
      rw [hnext]
      exact (hr2 q hused).keep (hr2 q hused).held rfl rfl rfl rfl
    have h3 : Holds (arena im.freemem hF) ⟨(next { k2 with idle := some idle }).2.toHeap, m.live⟩ := by
      rw [hnext]
      exact h2
    have hkeeps : KeepsHeaders ⟨(next { k2 with idle := some idle }).2.toHeap, m.live⟩
        (Xeros.resume im (next { k2 with idle := some idle }).2 q).toHeap := hr3.resume h3
    obtain ⟨-, hkeep⟩ := resumed_keeps im hf3 hn
    refine ⟨h3.keep (by rw [hkeep.freeList, hnext]) hkeeps, fun a ha => ?_⟩
    rw [hkeep.pidMap] at ha
    obtain ⟨hah, hsize⟩ := hn2 a ha
    refine ⟨hah, (hkeeps.held a hah _).trans ?_⟩
    rw [hnext]
    exact hsize

/-! ## Results -/

/-- What is sound stays sound when there is less of it. -/
theorem BlocksSound.subperm {freemem : Word} {h : Heap} {ptrs : List Word} (hs : BlocksSound freemem ⟨h, held⟩)
    (hsub : ptrs.Subperm held) : BlocksSound freemem ⟨h, ptrs⟩ := by
  refine ⟨?_, fun p hp => hs.free p (hsub.subset hp), fun p hp => hs.inside p (hsub.subset hp)⟩
  obtain ⟨l, hperm, hl⟩ := hsub
  exact (hs.disjoint.sublist hl).perm hperm fun hpq => hpq.symm

/-- In every run of careful steps, the stacks of the processes in use and the
nodes of the pid map lie apart from each other and from free memory. -/
theorem stacks_apart (hF : (align16 im.freemem).toNat < HOLESTART.toNat) {s : Ledger}
    (hs : Reach (ledgerStep im) (LedgerInit im) (Careful im) s) :
    BlocksSound im.freemem ⟨s.machine.sys.kernel.toHeap, owned s.machine.sys.kernel⟩ := by
  have h : (∃ lost, LedgerInv s lost) ∧ Holds (arena im.freemem hF) ⟨s.machine.sys.kernel.toHeap, s.held⟩ := by
    refine hs.inv (fun s => (∃ lost, LedgerInv s lost) ∧
      Holds (arena im.freemem hF) ⟨s.machine.sys.kernel.toHeap, s.held⟩) ?_ ?_
    · intro s h0
      refine ⟨⟨[], .boot h0⟩, ?_⟩
      obtain ⟨mem, root, idleproc, hb, hheld⟩ := h0
      obtain ⟨m, hm, hlive⟩ := Option.map_eq_some_iff.1 hheld
      exact hlive ▸ (boot_holds hF hb hm).1
    · rintro s e s' ⟨⟨lost, h⟩, hm⟩ hok hstep
      obtain ⟨t, ht, -⟩ := Option.bind_eq_some_iff.1 hstep
      obtain ⟨m, dropped, hserved, hfree, hstep', h', -⟩ := h.step hok.unlisted ht
      rw [hstep] at hstep'
      cases hstep'
      exact ⟨⟨_, h'⟩, hok.holds hserved ht hfree hm⟩
  obtain ⟨⟨lost, hinv⟩, hm⟩ := h
  have hsub : (owned s.machine.sys.kernel).Subperm s.held :=
    (List.sublist_append_left _ lost).subperm.trans hinv.books.symm.subperm
  exact (Holds.sound hm).subperm hsub

/-! ## Checking a run -/

def sameHeader (h h' : Heap) (n : Word) : Bool :=
  decide (∀ g ∈ [HdrField.size, .prev, .next, .sanityCheck], h'.get n g = h.get n g)

theorem sameHeader_ok {h h' : Heap} {n : Word} (hs : sameHeader h h' n = true) (g : HdrField) :
    h'.get n g = h.get n g := by
  refine of_decide_eq_true hs g ?_
  cases g <;> simp

def keepsHeaders (m : MemSys) (h : Heap) : Bool :=
  (m.live.all fun ptr => sameHeader m.heap h (hdrOf ptr)) && allFree m.heap (sameHeader m.heap h)

theorem keepsHeaders_ok {h : Heap} (hk : keepsHeaders m h = true) : KeepsHeaders m h := by
  rw [keepsHeaders, Bool.and_eq_true] at hk
  exact ⟨fun ptr hp => sameHeader_ok (List.all_eq_true.1 hk.1 ptr hp), fun n hn => sameHeader_ok (allFree_ok hk.2 hn)⟩

def callsOk : List MemEvent → MemSys → Bool
  | [], _ => true
  | e :: calls, m => noFreeAbove m e && (MemSys.step e m).all (callsOk calls)

theorem callsOk_ok {calls : List MemEvent} (h : callsOk calls m = true) : CallsOk calls m := by
  induction calls generalizing m with
  | nil => trivial
  | cons e calls ih =>
    rw [callsOk, Bool.and_eq_true] at h
    refine ⟨?_, fun m' hm => ih ?_⟩
    · exact noFreeAbove_ok h.1
    · rw [hm] at h
      exact h.2

/-- A step that can be seen to be careful. -/
def carefulEvent (im : Image) (s : Ledger) (e : Event) : Bool :=
  plainEvent s.machine e &&
    ((trapped s.machine.sys e).all fun x => callsOk (calls x.1 x.2.1 x.2.2) ⟨x.1.toHeap, s.held⟩) &&
    ((s.served e).all fun m => (tracedStep im e s.machine).all fun t => keepsHeaders m t.sys.kernel.toHeap)

theorem carefulEvent_ok {s : Ledger} {e : Event} (h : carefulEvent im s e = true) : Careful im s e := by
  unfold carefulEvent at h
  rw [Bool.and_eq_true, Bool.and_eq_true] at h
  obtain ⟨⟨hplain, hcalls⟩, hheaders⟩ := h
  refine ⟨plainEvent_ok hplain, fun k p r htr => ?_, fun m t hm ht => ?_⟩
  · rw [htr] at hcalls
    exact callsOk_ok hcalls
  · rw [hm, Option.all_some, ht, Option.all_some] at hheaders
    exact keepsHeaders_ok hheaders

/-- Process 0 creates a process and stops; the new one creates another, which
gets the memory that process 0 had. -/
theorem stacks_apart_reused : ∃ s : Ledger, (s.held.length = 6 ∧ s.machine.sys.kernel.stack 0 = 0x20010 ∧
    s.machine.sys.kernel.nextPid = 5) ∧
    BlocksSound sampleImage.freemem ⟨s.machine.sys.kernel.toHeap, owned s.machine.sys.kernel⟩ := by
  have h0 : Reach (ledgerStep sampleImage) (LedgerInit sampleImage) (Careful sampleImage) ledgerBoot :=
    .start ledgerBoot_init
  obtain ⟨s, hs, ht⟩ := h0.exec_ok (carefulEvent sampleImage) (fun _ _ => carefulEvent_ok)
    (call 0x21f00 .CREATE [0x7000, 0x1000] ++ call 0x25000 .YIELD [] ++ call 0x21f00 .STOP [] ++
      call 0x25000 .CREATE [0x7000, 0x1000])
    (fun s => decide (s.held.length = 6 ∧ s.machine.sys.kernel.stack 0 = 0x20010 ∧ s.machine.sys.kernel.nextPid = 5))
    (by decide +kernel)
  exact ⟨s, of_decide_eq_true ht, stacks_apart (by decide) hs⟩

end Xeros
