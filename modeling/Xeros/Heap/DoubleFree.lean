import Xeros.Heap.RoundTrip
import Xeros.Heap.Runs
/-!
# Double free

`kfree` leaves a pointer alone unless the header in front of it carries its
mark, so a second `kfree` of a block does nothing as long as no free node is
marked. `kmalloc` does not clear the word of the mark in a header that it
splits off, and with a stale back pointer it leaves the node it marks on the
list. Where neither happens the free nodes stay unmarked (`double_free_guarded`);
a client that stores the right word can otherwise mark a node (`double_free_unguarded`).
-/

namespace Xeros

open DLinks Runs Span

/-! ## Taking a node off the chain -/

/-- What stays free of `n`, by its place. -/
inductive NodeRest (n : Node) (amount : Word) : List Node → Prop
  | whole : ¬0 < (n.size - amount - SIZEOF_MEMHEADER).toInt → NodeRest n amount []
  | split (m : Node) : 0 < (n.size - amount - SIZEOF_MEMHEADER).toInt → m.addr = dataStart n.addr + amount →
      m.size = n.size - amount - SIZEOF_MEMHEADER → m.span.lo = n.span.lo + 16 + amount.toNat → m.span.hi = n.span.hi →
      NodeRest n amount [m]

theorem exists_nodeRest {n : Node} {amount : Word} (hn : n.span.hi ≤ FREEMEM_END.toNat) (hle : amount ≤ n.size) :
    ∃ rest, NodeRest n amount rest := by
  have hend : FREEMEM_END.toNat = 0x400000 := rfl
  rw [hend] at hn
  have hle' : amount.toNat ≤ n.size.toNat := hle
  simp only [Node.span] at hn
  have hrmd := rmdSize_pos (s := n.size) (a := amount) (by omega) hle'
  by_cases hs : 0 < (n.size - amount - SIZEOF_MEMHEADER).toInt
  · have hroom := hrmd.1 hs
    refine ⟨_, .split ⟨dataStart n.addr + amount, n.size - amount - SIZEOF_MEMHEADER, ?_⟩ hs rfl rfl ?_ ?_⟩
    · intro e
      simp only [dataStart, SIZEOF_MEMHEADER] at e
      bv_omega
    · simp only [Node.span, dataStart, SIZEOF_MEMHEADER]
      bv_omega
    · simp only [Node.span, dataStart, SIZEOF_MEMHEADER]
      bv_omega
  · exact ⟨[], .whole hs⟩

theorem NodeRest.within {n : Node} {amount : Word} {rest : List Node} (hr : NodeRest n amount rest) :
    ∀ m ∈ rest, Within m.span n.span := by
  cases hr with
  | whole _ => simp
  | split m _ _ _ hlo hhi =>
    intro k hk
    rw [List.mem_singleton.1 hk]
    exact ⟨by omega, Nat.le_of_eq hhi⟩

/-- It begins behind the bytes that are handed out. -/
theorem NodeRest.behind {n : Node} {amount : Word} {rest : List Node} (hr : NodeRest n amount rest) :
    ∀ m ∈ rest, n.span.lo + 16 + amount.toNat ≤ m.span.lo := by
  cases hr with
  | whole _ => simp
  | split m _ _ _ hlo _ =>
    intro k hk
    rw [List.mem_singleton.1 hk]
    exact Nat.le_of_eq hlo.symm

/-- The headers off the edit keep their sizes and marks. -/
structure TakenOff (h h' : Heap) (n amount : Word) (rest : List Node) : Prop where
  size : h'.get n .size = amount
  mark : h'.get n .sanityCheck = dataStart n
  sizes : ∀ c, Aligned c → c ≠ 0 → c ≠ n → c ∉ rest.map Node.addr → h'.get c .size = h.get c .size
  marks : ∀ c, Aligned c → c ≠ 0 → c ≠ n → h'.get c .sanityCheck = h.get c .sanityCheck

/-- `h1` is `h` with the headers of `rest` linked to `r`. -/
structure Prepared (h h1 : Heap) (rest : List Node) (r : Word) : Prop where
  freeList : h1.freeList = h.freeList
  chain : (rest.map Node.addr ++ [r]).IsChain fun a b => h1.get a .next = b
  own : ∀ m ∈ rest, h1.get m.addr .size = m.size
  keep : ∀ c g, Aligned c → c ≠ 0 → c ∉ rest.map Node.addr ∨ g = .sanityCheck → g ≠ .prev → h1.get c g = h.get c g

section
variable {h h1 : Heap} {xs ys rest : List Node} {n : Node} {amount : Word}

theorem aligned_last_node (hal : ∀ m ∈ xs, Aligned m.addr) : Aligned ((xs.map Node.addr).getLastD 0) := by
  rcases last_node xs with e | ⟨m, hm, e⟩
  · rw [e]
    exact aligned_zero
  · exact e ▸ hal m hm

theorem aligned_head_node (hal : ∀ m ∈ ys, Aligned m.addr) : Aligned ((ys.map Node.addr).headD 0) := by
  rcases head_node ys with e | ⟨m, hm, e⟩
  · rw [e]
    exact aligned_zero
  · exact e ▸ hal m hm

/-- The end of `kmalloc` on the chain: `rest` takes the place of `n`. -/
theorem Prepared.handOut (amount : Word) (hp : Prepared h h1 rest ((ys.map Node.addr).headD 0))
    (hc : FreeChain h (xs ++ n :: ys))
    (hal : ∀ m ∈ n :: (xs ++ rest ++ ys), Aligned m.addr) (hnd : ((xs ++ rest ++ ys).map Node.addr).Nodup)
    (hn : ∀ m ∈ xs ++ rest ++ ys, m.addr ≠ n.addr) :
    let h' := h1.handOut n.addr ((xs.map Node.addr).getLastD 0) (((rest ++ ys).map Node.addr).headD 0) amount
    FreeChain h' (xs ++ rest ++ ys) ∧ TakenOff h h' n.addr amount rest := by
  intro h'
  have hqa : Aligned ((xs.map Node.addr).getLastD 0) := aligned_last_node fun m hm => hal m (by simp [hm])
  have hxa : Aligned (((rest ++ ys).map Node.addr).headD 0) := aligned_head_node fun m hm => hal m (by
    simp only [List.mem_append] at hm
    simp only [List.mem_cons, List.mem_append]
    tauto)
  have hna := hal n (by simp)
  have hget {c : Word} {g : HdrField} (hca : Aligned c) (hc0 : c ≠ 0) :=
    Heap.get_handOut h1 amount (g := g) hna hqa hxa hca hc0
  set q := (xs.map Node.addr).getLastD 0 with hq
  set x := ((rest ++ ys).map Node.addr).headD 0 with hx
  have hoff : ∀ {c g}, Aligned c → c ≠ 0 → c ≠ n.addr → g ≠ .next → g ≠ .prev → h'.get c g = h1.get c g := by
    intro c g hca hc0 hcn hg1 hg2
    rw [hget hca hc0, if_neg hcn, if_neg (fun e => hg1 e.2), if_neg (fun e => hg2 e.2)]
  have hdis : ∀ {m}, m ∈ xs ++ ys → m.addr ∉ rest.map Node.addr := by
    intro m hm hmr
    simp only [List.map_append, List.append_assoc] at hnd
    obtain ⟨-, hry, hxr⟩ := List.nodup_append.1 hnd
    rcases List.mem_append.1 hm with hm | hm
    · exact hxr _ (List.mem_map_of_mem hm) _ (List.mem_append_left _ hmr) rfl
    · exact (List.nodup_append.1 hry).2.2 _ hmr _ (List.mem_map_of_mem hm) rfl
  have hmem : ∀ {m}, m ∈ xs ++ ys → Aligned m.addr ∧ m.addr ≠ n.addr := by
    intro m hm
    have hm' : m ∈ xs ++ rest ++ ys := by
      simp only [List.mem_append] at hm ⊢
      tauto
    exact ⟨hal m (List.mem_cons_of_mem _ hm'), hn m hm'⟩
  have hrest : ∀ {m}, m ∈ rest → Aligned m.addr ∧ m.addr ≠ n.addr ∧ m.addr ≠ q := by
    intro m hm
    refine ⟨hal m (by simp [hm]), hn m (by simp [hm]), ?_⟩
    rcases last_node xs with e | ⟨k, hk, e⟩
    · rw [hq, e]
      exact m.nonnull
    · intro e'
      exact hdis (List.mem_append_left _ hk) (List.mem_map.2 ⟨m, hm, e'.trans (hq.trans e.symm)⟩)
  constructor
  · have hc' : FreeChain h (xs ++ [n] ++ ys) := by simpa using hc
    refine hc'.edit hq.symm rfl (fun e => ?_) (fun m hm => ?_) (fun m hm hmq => ?_) ?_ (fun m hm => ?_) hnd
    · rw [Heap.freeList_handOut, if_neg e, hp.freeList]
    · obtain ⟨hma, hmn⟩ := hmem hm
      rw [hoff hma m.nonnull hmn (by simp) (by simp), hp.keep _ _ hma m.nonnull (.inl (hdis hm)) (by simp)]
    · obtain ⟨hma, hmn⟩ := hmem hm
      rw [hget hma m.nonnull, if_neg hmn, if_neg (fun e => hmq e.1), if_neg (by simp),
        hp.keep _ _ hma m.nonnull (.inl (hdis hm)) (by simp)]
    · obtain ⟨ws, hws⟩ := eq_cons_headD ((ys.map Node.addr).headD 0) (rest.map Node.addr)
      have hxe : (rest.map Node.addr).headD ((ys.map Node.addr).headD 0) = x := by
        cases rest <;> rfl
      rw [List.cons_append, hws, List.isChain_cons_cons, ← hws, hxe]
      refine ⟨?_, isChain_congr hp.chain fun a ha b _ hab => ?_⟩
      · rcases last_node xs with e | ⟨k, hk, e⟩
        · rw [hq, e, Heap.ptrs_fw_null, Heap.freeList_handOut, if_pos]
          exact hq.trans e
        · obtain ⟨hka, hkn⟩ := hmem (List.mem_append_left ys hk)
          rw [hq, ← e, Heap.ptrs_fw _ k.nonnull, hget hka k.nonnull, if_neg hkn, if_pos ⟨e.trans hq.symm, rfl⟩]
      · rw [List.dropLast_concat] at ha
        obtain ⟨m, hm, rfl⟩ := List.mem_map.1 ha
        obtain ⟨hma, hmn, hmq⟩ := hrest hm
        rw [Heap.ptrs_fw _ m.nonnull, hget hma m.nonnull, if_neg hmn, if_neg (fun e => hmq e.1), if_neg (by simp), hab]
    · obtain ⟨hma, hmn, -⟩ := hrest hm
      rw [hoff hma m.nonnull hmn (by simp) (by simp), hp.own m hm]
  · refine ⟨?_, ?_, fun c hca hc0 hcn hcr => ?_, fun c hca hc0 hcn => ?_⟩
    · rw [hget hna n.nonnull, if_pos rfl]
      rfl
    · rw [hget hna n.nonnull, if_pos rfl]
      rfl
    · rw [hoff hca hc0 hcn (by simp) (by simp), hp.keep c _ hca hc0 (.inl hcr) (by simp)]
    · rw [hoff hca hc0 hcn (by simp) (by simp), hp.keep c _ hca hc0 (.inr rfl) (by simp)]

theorem prepared_split {m : Node} {r : Word} (hm : Aligned m.addr) (hr : Aligned r) :
    Prepared h (((h.set m.addr .size m.size).set m.addr .next r).putPrev r m.addr) [m] r := by
  have hget {c : Word} {g : HdrField} (hc : Aligned c) (hc0 : c ≠ 0) (hg : g ≠ .prev) :
      (((h.set m.addr .size m.size).set m.addr .next r).putPrev r m.addr).get c g =
        if c = m.addr ∧ g = .next then r else if c = m.addr ∧ g = .size then m.size else h.get c g := by
    rw [Heap.get_putPrev hr hc hc0, if_neg (fun e => hg e.2 : ¬(c = r ∧ g = .prev)), Heap.get_set _ _ _ _ hm hc,
      Heap.get_set _ _ _ _ hm hc]
  refine ⟨by rw [Heap.freeList_putPrev]; rfl, ?_, fun k hk => ?_, fun c g hc hc0 hcg hg => ?_⟩
  · refine List.isChain_cons_cons.2 ⟨?_, by simp⟩
    rw [hget hm m.nonnull (by simp), if_pos ⟨rfl, rfl⟩]
  · rw [List.mem_singleton.1 hk, hget hm m.nonnull (by simp), if_neg (by simp), if_pos ⟨rfl, rfl⟩]
  · rw [hget hc hc0 hg]
    rcases hcg with hcm | rfl
    · rw [List.map_singleton, List.mem_singleton] at hcm
      rw [if_neg (fun e => hcm e.1), if_neg (fun e => hcm e.1)]
    · rw [if_neg (by simp), if_neg (by simp)]

theorem NodeRest.aligned (hr : NodeRest n amount rest) (hn : Aligned n.addr) (ha : Aligned amount) :
    ∀ m ∈ rest, Aligned m.addr ∧ m.addr ≠ n.addr := by
  intro m hm
  unfold Aligned at hn ha ⊢
  cases hr with
  | whole _ => cases hm
  | split k _ _ _ hlo _ =>
    rw [List.mem_singleton.1 hm]
    simp only [Node.span] at hlo
    refine ⟨by omega, fun e => ?_⟩
    rw [e] at hlo
    omega

theorem NodeRest.spaced (hr : NodeRest n amount rest) (hs : Spaced ((xs ++ n :: ys).map Node.span)) :
    Spaced ((xs ++ rest ++ ys).map Node.span) := by
  rw [List.map_append, List.map_cons] at hs
  have hin := hr.within
  cases hr with
  | whole _ =>
    rw [List.append_nil, List.map_append]
    exact hs.sublist (List.Sublist.append_left (List.sublist_cons_self ..) _)
  | split m _ _ _ _ _ => simpa using hs.shrink (hin m (by simp))

theorem addr_nodup_of_spaced {l : List Node} (hs : Spaced (l.map Node.span)) : (l.map Node.addr).Nodup := by
  have ha := List.pairwise_map.1 hs
  rw [List.Nodup, List.pairwise_map]
  refine ha.imp fun {b c} hbc e => ?_
  simp only [Node.span, e] at hbc
  omega

/-- `kmalloc` keeps the chain, when the back pointer of the node it takes is right. -/
theorem chain_take (hf : Forward h (xs ++ n :: ys)) (hal : ∀ m ∈ xs ++ n :: ys, Aligned m.addr) (ha : Aligned amount)
    (hprev : h.get n.addr .prev = (xs.map Node.addr).getLastD 0) (hr : NodeRest n amount rest) :
    Forward (kmalloc_take h amount n.addr) (xs ++ rest ++ ys) ∧
      TakenOff h (kmalloc_take h amount n.addr) n.addr amount rest := by
  have hne := addr_ne_of_nodup (List.nodup_cons.1 hf.list.nodup).2
  have hs := hr.spaced hf.spaced
  have hna := hal n (by simp)
  have hra : Aligned ((ys.map Node.addr).headD 0) := aligned_head_node fun m hm => hal m (by simp [hm])
  have hnr : n.addr ≠ (ys.map Node.addr).headD 0 := by
    rcases head_node ys with e | ⟨m, hm, e⟩
    · rw [e]
      exact n.nonnull
    · exact e ▸ (hne m (by simp [hm])).symm
  have hsize := hf.size n (by simp)
  have hmem : ∀ m ∈ xs ++ rest ++ ys, m ∈ xs ++ ys ∨ m ∈ rest := by
    intro m hm
    simp only [List.mem_append] at hm ⊢
    tauto
  have hold : ∀ m ∈ xs ++ ys, m ∈ xs ++ n :: ys := by
    intro m hm
    simp only [List.mem_append, List.mem_cons] at hm ⊢
    tauto
  have hfits : ∀ m ∈ xs ++ rest ++ ys, m.span.hi ≤ 2 ^ 32 := by
    intro m hm
    rcases hmem m hm with hm | hm
    · exact hf.fits m (hold m hm)
    · exact Nat.le_trans (hr.within m hm).2 (hf.fits n (by simp))
  have hres := hr.aligned hna ha
  have hal' : ∀ m ∈ n :: (xs ++ rest ++ ys), Aligned m.addr := by
    refine List.forall_mem_cons.2 ⟨hna, fun m hm => ?_⟩
    rcases hmem m hm with hm | hm
    · exact hal m (hold m hm)
    · exact (hres m hm).1
  have hn' : ∀ m ∈ xs ++ rest ++ ys, m.addr ≠ n.addr := by
    intro m hm
    rcases hmem m hm with hm | hm
    · exact hne m hm
    · exact (hres m hm).2
  obtain ⟨h1, hk, hp⟩ : ∃ h1, kmalloc_take h amount n.addr =
      h1.handOut n.addr ((xs.map Node.addr).getLastD 0) (((rest ++ ys).map Node.addr).headD 0) amount ∧
      Prepared h h1 rest ((ys.map Node.addr).headD 0) := by
    cases hr with
    | whole hw =>
      refine ⟨h, kmalloc_take_whole hna n.nonnull hra hnr (hsize ▸ hw) hprev hf.next_eq, rfl, by simp, by simp, ?_⟩
      exact fun _ _ _ _ _ _ => rfl
    | split m hroom hm hms _ _ =>
      obtain ⟨hma, hmn⟩ := hres m (by simp)
      refine ⟨_, ?_, prepared_split hma hra⟩
      rw [kmalloc_take_split hna n.nonnull hra hnr hma hmn.symm (hsize ▸ hroom) hprev hf.next_eq hm.symm, hsize, ← hms]
      rfl
  obtain ⟨hc, ht⟩ := hp.handOut amount hf.toFreeChain hal' (addr_nodup_of_spaced hs) hn'
  rw [hk]
  exact ⟨⟨hc, hs, hfits⟩, ht⟩

end

/-! ## Runs -/

/-- No free node carries its mark, so a second `kfree` of it does nothing. -/
structure GuardHolds (s : MemSys) : Prop where
  unmarked : ∀ n, FreeNode s.heap n → s.heap.get n .sanityCheck ≠ dataStart n
  unchanged : ∀ n, FreeNode s.heap n → kfree s.heap (dataStart n) = some s.heap

/-- The back pointer of a listed node leads to the node in front of it. -/
def BackRight (h : Heap) (n : Word) : Prop :=
  if h.get n .prev = 0 then h.freeList = n else FreeNode h (h.get n .prev) ∧ h.get (h.get n .prev) .next = n

/-- The node that `kmalloc` takes has a right back pointer, and where it is
split, the old word in the place of the new mark is not that mark. -/
def TakesSafely (s : MemSys) : MemEvent → Prop
  | .kmalloc size => ∀ n, 0 < size.toInt → kmalloc_walk s.heap (align16 size) WALK_FUEL s.heap.freeList = some n → n ≠ 0 →
    BackRight s.heap n ∧
      (0 < (s.heap.get n .size - align16 size - SIZEOF_MEMHEADER).toInt →
        s.heap.get (dataStart n + align16 size) .sanityCheck ≠ dataStart (dataStart n + align16 size))
  | _ => True

/-- The chain, the blocks the clients hold, and where the marks are. -/
structure Unmarked (s : MemSys) (free live : List Node) : Prop extends Forward s.heap free where
  aligned : ∀ n ∈ free ++ live, Aligned n.addr
  below : ∀ n ∈ free ++ live, n.span.hi ≤ FREEMEM_END.toNat
  live_apart : (live.map Node.span).Pairwise Apart
  cross : ∀ b ∈ live, ∀ n ∈ free, Apart b.span n.span
  live_size : ∀ b ∈ live, s.heap.get b.addr .size = b.size
  mark : ∀ b ∈ live, s.heap.get b.addr .sanityCheck = dataStart b.addr
  unmarked : ∀ n ∈ free, s.heap.get n.addr .sanityCheck ≠ dataStart n.addr
  held : s.live = live.map fun b => dataStart b.addr

namespace FreeChain
variable {h : Heap} {free : List Node}

theorem mem_of_freeNode (hc : FreeChain h free) {n : Word} (hn : FreeNode h n) : ∃ m ∈ free, m.addr = n := by
  induction hn with
  | head h0 =>
    rw [hc.freeList_eq] at h0 ⊢
    exact (head_node free).resolve_left h0
  | next _ h0 ih =>
    obtain ⟨m, hm, rfl⟩ := ih
    obtain ⟨xs, ys, rfl⟩ := List.append_of_mem hm
    rw [hc.next_eq] at h0 ⊢
    obtain ⟨k, hk, e⟩ := (head_node ys).resolve_left h0
    exact ⟨k, by simp [hk], e⟩

/-- The node whose pointer leads to `n` is the one in front of it. -/
theorem last_of_backRight {xs ys : List Node} {n : Node} (hc : FreeChain h (xs ++ n :: ys)) (hb : BackRight h n.addr) :
    h.get n.addr .prev = (xs.map Node.addr).getLastD 0 := by
  have hnd := (List.nodup_cons.1 hc.list.nodup).2
  have hne := addr_ne_of_nodup hnd
  unfold BackRight at hb
  split at hb
  · next e =>
    rw [e]
    cases xs with
    | nil => rfl
    | cons x xs => exact absurd (hc.freeList_eq.symm.trans hb) (hne x (by simp))
  · obtain ⟨hq, hnext⟩ := hb
    obtain ⟨k, hk, e⟩ := hc.mem_of_freeNode hq
    rw [← e] at hnext ⊢
    obtain ⟨as, bs, hsplit⟩ := List.append_of_mem hk
    rw [hsplit] at hc
    rw [hc.next_eq] at hnext
    obtain ⟨m, bs', rfl⟩ : ∃ m bs', bs = m :: bs' := by
      cases bs with
      | nil => exact absurd hnext.symm n.nonnull
      | cons m bs' => exact ⟨m, bs', rfl⟩
    rw [List.map_cons, List.headD_cons] at hnext
    -- both ways to split the list at `n` are the same
    have heq : xs.map Node.addr ++ n.addr :: ys.map Node.addr =
        (as ++ [k]).map Node.addr ++ n.addr :: bs'.map Node.addr := by
      rw [← List.map_cons, ← List.map_append, hsplit, ← hnext]
      simp
    have hnot : ∀ l : List Node, (∀ x ∈ l, x ∈ xs ++ ys) → n.addr ∉ l.map Node.addr := by
      intro l hl hm
      obtain ⟨x, hx, e'⟩ := List.mem_map.1 hm
      exact hne x (hl x hx) e'
    obtain ⟨hxs, -, -⟩ := (List.append_cons_inj_of_notMem (hnot xs fun x hx => by simp [hx])
      (hnot ys fun x hx => by simp [hx])).1 heq
    rw [hxs, List.map_append, List.map_singleton, List.getLastD_concat]

/-- A change that no listed header sees. -/
theorem congr {h' : Heap} (hc : FreeChain h free) (hf : h'.freeList = h.freeList)
    (hg : ∀ n ∈ free, ∀ g, h'.get n.addr g = h.get n.addr g) : FreeChain h' free := by
  refine ⟨⟨isChain_congr hc.list.chain fun x hx y _ hxy => ?_, hc.list.nodup⟩, fun n hn => (hg n hn _).trans (hc.size n hn)⟩
  rw [List.dropLast_concat] at hx
  rw [← hxy]
  rcases List.mem_cons.1 hx with rfl | hx
  · rw [Heap.ptrs_fw_null, Heap.ptrs_fw_null, hf]
  · obtain ⟨n, hn, rfl⟩ := List.mem_map.1 hx
    rw [Heap.ptrs_fw _ n.nonnull, Heap.ptrs_fw _ n.nonnull, hg n hn]

/-- The walk ends at the first node that is large enough. -/
theorem walk (hc : FreeChain h free) (amount : Word) : kmalloc_walk h amount WALK_FUEL h.freeList =
    some (((free.find? fun n => amount ≤ h.get n.addr .size).map Node.addr).getD 0) := by
  rw [hc.freeList_eq, kmalloc_walk_eq hc.next_chain hc.null_not_mem
    (length_lt_fuel (List.nodup_cons.1 hc.list.nodup).2 hc.null_not_mem), List.find?_map]
  rfl

end FreeChain

namespace Unmarked
variable {s : MemSys} {free live : List Node}

theorem guard (hu : Unmarked s free live) : GuardHolds s := by
  have hno : ∀ n, FreeNode s.heap n → s.heap.get n .sanityCheck ≠ dataStart n := by
    intro n hn
    obtain ⟨m, hm, rfl⟩ := hu.mem_of_freeNode hn
    exact hu.unmarked m hm
  refine ⟨hno, fun n hn => ?_⟩
  have e : dataStart n - SIZEOF_MEMHEADER = n := hdrOf_dataStart n
  unfold Xeros.kfree
  rw [e, if_neg (hno n hn)]

theorem dataStart_ne {n : Node} (hn : n.span.hi ≤ FREEMEM_END.toNat) : dataStart n.addr ≠ 0 := by
  have hend : FREEMEM_END.toNat = 0x400000 := rfl
  simp only [Node.span, hend] at hn
  simp only [dataStart, SIZEOF_MEMHEADER]
  bv_omega

theorem init {freemem : Word} (hF : (align16 freemem).toNat < HOLESTART.toNat) (hs : MemSys.Init freemem s) :
    ∃ free live, Unmarked s free live := by
  obtain ⟨m, rfl⟩ := hs
  obtain ⟨free, hr, hsp, hz⟩ := represents_kmeminit hF { mem := m, freeList := 0 }
  have hbelow : ∀ b ∈ free, b.span.hi ≤ FREEMEM_END.toNat := fun b hb => hr.below (by simp [hb])
  have hw : WellFormed (kmeminit freemem { mem := m, freeList := 0 }) free :=
    ⟨hr.list, fun b hb => hr.size b (by simp [hb]), hsp, hbelow⟩
  refine ⟨free.map Block.node, [], hw.forward, fun n hn => ?_, fun n hn => ?_, .nil, by simp, by simp, by simp,
    fun n hn => ?_, rfl⟩
  · obtain ⟨b, -, rfl⟩ := List.mem_map.1 (List.append_nil (free.map Block.node) ▸ hn)
    exact b.aligned
  · obtain ⟨b, hb, rfl⟩ := List.mem_map.1 (List.append_nil (free.map Block.node) ▸ hn)
    exact hbelow b hb
  · obtain ⟨b, hb, rfl⟩ := List.mem_map.1 hn
    intro e
    exact dataStart_ne (n := b.node) (hbelow b hb) (e.symm.trans (hz b hb))

theorem apart_live (hu : Unmarked s free live) {b d : Node} (hb : b ∈ live) (hd : d ∈ free ++ live) :
    d.addr = b.addr ∨ Apart d.span b.span := by
  rcases List.mem_append.1 hd with hd | hd
  · exact .inr (hu.cross b hb d hd).symm
  · have hp := List.pairwise_map.1 hu.live_apart
    have hsym : Std.Symm fun b c : Node => Apart b.span c.span := ⟨fun _ _ => Apart.symm⟩
    by_cases e : d = b
    · exact .inl (by rw [e])
    · exact .inr (hp.forall hd hb e)

/-- A byte in a payload is in no header. -/
theorem write (hu : Unmarked s free live) {a : Word} {c : Byte} (hp : ∃ p ∈ s.live, InPayload s.heap p a) :
    Unmarked { s with heap := { s.heap with mem := s.heap.mem.store8 a c } } free live := by
  obtain ⟨p, hpl, hpa⟩ := hp
  rw [hu.held] at hpl
  obtain ⟨b, hb, rfl⟩ := List.mem_map.1 hpl
  rw [InPayload, hdrOf_dataStart, hu.live_size b hb] at hpa
  have hget : ∀ d ∈ free ++ live, ∀ g,
      Heap.get { s.heap with mem := s.heap.mem.store8 a c } d.addr g = s.heap.get d.addr g := by
    intro d hd g
    refine Mem.load32_congr fun x hx => Mem.store8_ne _ _ ?_
    rintro rfl
    have hbb := hu.below b (by simp [hb])
    have hdb := hu.below d hd
    have hdis := hu.apart_live hb hd
    have hend : FREEMEM_END.toNat = 0x400000 := rfl
    rw [hend] at hbb hdb
    simp only [Apart, Node.span] at hdis hbb hdb
    simp only [dataStart, SIZEOF_MEMHEADER] at hpa
    cases g <;> simp only [HdrField.offset] at hx <;> bv_omega
  have hfree : ∀ n ∈ free, n ∈ free ++ live := fun n hn => List.mem_append_left _ hn
  have hlive : ∀ b ∈ live, b ∈ free ++ live := fun b hb => List.mem_append_right _ hb
  refine ⟨⟨hu.toFreeChain.congr rfl fun n hn => hget n (hfree n hn), hu.spaced, hu.fits⟩, hu.aligned, hu.below,
    hu.live_apart, hu.cross, fun b hb => ?_, fun b hb => ?_, fun n hn => ?_, hu.held⟩
  · exact (hget b (hlive b hb) _).trans (hu.live_size b hb)
  · exact (hget b (hlive b hb) _).trans (hu.mark b hb)
  · intro e
    exact hu.unmarked n hn ((hget n (hfree n hn) _).symm.trans e)

theorem addr_ne_of_apart {a b : Node} (h : Apart a.span b.span) : a.addr ≠ b.addr := by
  intro e
  simp only [Apart, Node.span, e] at h
  omega

/-- `b` is handed out from the front of `n`, and `rest` stays free. -/
theorem take {xs ys rest : List Node} {n b : Node} {h' : Heap} (hu : Unmarked s (xs ++ n :: ys) live)
    (hr : NodeRest n b.size rest) (ha : Aligned b.size) (hb : b.addr = n.addr) (hle : b.size ≤ n.size)
    (hf : Forward h' (xs ++ rest ++ ys)) (ht : TakenOff s.heap h' n.addr b.size rest)
    (hno : ∀ m ∈ rest, s.heap.get m.addr .sanityCheck ≠ dataStart m.addr) :
    Unmarked ⟨h', dataStart b.addr :: s.live⟩ (xs ++ rest ++ ys) (b :: live) := by
  have hle' : b.size.toNat ≤ n.size.toNat := hle
  have hbn : Within b.span n.span := by
    simp only [Within, Node.span, hb]
    omega
  have hold : ∀ m ∈ xs ++ ys, m ∈ xs ++ n :: ys := by
    intro m hm
    simp only [List.mem_append, List.mem_cons] at hm ⊢
    tauto
  have hnew : ∀ m ∈ xs ++ rest ++ ys, m ∈ xs ++ ys ∨ m ∈ rest := by
    intro m hm
    simp only [List.mem_append] at hm ⊢
    tauto
  have hall : ∀ m ∈ (xs ++ rest ++ ys) ++ b :: live, m ∈ (xs ++ n :: ys) ++ live ∨ m ∈ rest ∨ m = b := by
    intro m hm
    simp only [List.mem_append, List.mem_cons] at hm ⊢
    tauto
  have hnot : ∀ m ∈ xs ++ ys, m.addr ≠ n.addr := addr_ne_of_nodup (List.nodup_cons.1 hu.list.nodup).2
  have hrest := hr.aligned (hu.aligned n (by simp)) ha
  -- every other block is apart from the node, so from its parts
  have hcross : ∀ c ∈ live, ∀ m ∈ xs ++ rest ++ ys, Apart c.span m.span := by
    intro c hc m hm
    rcases hnew m hm with hm | hm
    · exact hu.cross c hc m (hold m hm)
    · exact ((hu.cross c hc n (by simp)).symm.within (hr.within m hm)).symm
  have hcn : ∀ c ∈ live, c.addr ≠ n.addr := fun c hc => addr_ne_of_apart (hu.cross c hc n (by simp))
  have hca : ∀ c ∈ live, Aligned c.addr := fun c hc => hu.aligned c (by simp [hc])
  refine ⟨hf, fun m hm => ?_, fun m hm => ?_, ?_, fun c hc m hm => ?_, fun c hc => ?_, fun c hc => ?_, fun m hm => ?_, ?_⟩
  · rcases hall m hm with hm | hm | rfl
    · exact hu.aligned m hm
    · exact (hrest m hm).1
    · exact hb ▸ hu.aligned n (by simp)
  · rcases hall m hm with hm | hm | rfl
    · exact hu.below m hm
    · exact Nat.le_trans (hr.within m hm).2 (hu.below n (by simp))
    · exact Nat.le_trans hbn.2 (hu.below n (by simp))
  · refine List.pairwise_cons.2 ⟨fun t ht => ?_, hu.live_apart⟩
    obtain ⟨c, hc, rfl⟩ := List.mem_map.1 ht
    exact (hu.cross c hc n (by simp)).symm.within hbn
  · rcases List.mem_cons.1 hc with rfl | hc
    · rcases hnew m hm with hm | hm
      · have hs := hu.spaced
        rw [List.map_append, List.map_cons] at hs
        exact (hs.others_apart _ (by simpa only [List.map_append] using List.mem_map_of_mem hm)).within hbn
      · have hlo := hr.behind m hm
        refine .inl ?_
        simp only [Node.span] at hlo ⊢
        rw [hb]
        omega
    · exact hcross c hc m hm
  · rcases List.mem_cons.1 hc with rfl | hc
    · exact hb ▸ ht.size
    · rw [ht.sizes _ (hca c hc) c.nonnull (hcn c hc), hu.live_size c hc]
      intro hm
      obtain ⟨m, hm, e⟩ := List.mem_map.1 hm
      exact addr_ne_of_apart (hcross c hc m (by simp [hm])) e.symm
  · rcases List.mem_cons.1 hc with rfl | hc
    · rw [hb]
      exact ht.mark
    · rw [ht.marks _ (hca c hc) c.nonnull (hcn c hc), hu.mark c hc]
  · rcases hnew m hm with hm | hm
    · rw [ht.marks _ (hu.aligned m (List.mem_append_left _ (hold m hm))) m.nonnull (hnot m hm)]
      exact hu.unmarked m (hold m hm)
    · rw [ht.marks _ (hrest m hm).1 m.nonnull (hrest m hm).2]
      exact hno m hm
  · rw [hu.held]
    rfl

theorem kmalloc {size : Word} {s' : MemSys} (hu : Unmarked s free live) (hok : TakesSafely s (.kmalloc size))
    (ht : MemSys.step (.kmalloc size) s = some s') : ∃ free' live', Unmarked s' free' live' := by
  by_cases hs : size.toInt ≤ 0
  · have hk : Xeros.kmalloc s.heap size = some (0, s.heap) := by
      unfold Xeros.kmalloc
      rw [if_pos hs]
    simp only [MemSys.step, hk, Option.bind_eq_bind, Option.bind_some, if_pos, Option.some.injEq] at ht
    exact ⟨free, live, ht ▸ hu⟩
  have hwalk := hu.walk (align16 size)
  cases hfind : free.find? fun n => align16 size ≤ s.heap.get n.addr .size with
  | none =>
    have hk : Xeros.kmalloc s.heap size = some (0, s.heap) := by
      simp only [Xeros.kmalloc, if_neg hs, hwalk, hfind]
      rfl
    simp only [MemSys.step, hk, Option.bind_eq_bind, Option.bind_some, if_pos, Option.some.injEq] at ht
    exact ⟨free, live, ht ▸ hu⟩
  | some n =>
    rw [hfind, Option.map_some, Option.getD_some] at hwalk
    obtain ⟨hback, hmark⟩ := hok n.addr (Int.not_le.1 hs) hwalk n.nonnull
    obtain ⟨hn, xs, ys, rfl, -⟩ := List.find?_eq_some_iff_append.1 hfind
    have hsize := hu.size n (by simp)
    have hle : align16 size ≤ n.size := by
      rw [← hsize]
      simpa using hn
    have ha := aligned_align16 size
    have hbelow := hu.below n (by simp)
    obtain ⟨rest, hrest⟩ := exists_nodeRest hbelow hle
    obtain ⟨hf, htake⟩ := chain_take hu.toForward (fun m hm => hu.aligned m (List.mem_append_left _ hm)) ha
      (hu.last_of_backRight hback) hrest
    have hnew := hu.take (b := ⟨n.addr, align16 size, n.nonnull⟩) hrest ha rfl hle hf htake fun m hm => by
      cases hrest with
      | whole _ => cases hm
      | split k hroom hk _ _ _ =>
        rw [List.mem_singleton.1 hm, hk]
        exact hmark (hsize.symm ▸ hroom)
    have hk : Xeros.kmalloc s.heap size = some (dataStart n.addr, kmalloc_take s.heap (align16 size) n.addr) := by
      simp only [Xeros.kmalloc, if_neg hs, hwalk, Option.bind_eq_bind, Option.bind_some, if_neg n.nonnull]
    simp only [MemSys.step, hk, Option.bind_eq_bind, Option.bind_some, if_neg (dataStart_ne hbelow), Option.some.injEq] at ht
    exact ⟨_, _, ht ▸ hnew⟩

theorem kfree {ptr : Word} {s' : MemSys} (hu : Unmarked s free live) (ht : MemSys.step (.kfree ptr) s = some s') :
    ∃ free' live', Unmarked s' free' live' := by
  by_cases hp : ptr ∈ s.live
  swap
  · simp only [MemSys.step, if_neg hp, reduceCtorEq] at ht
  have hp' := hp
  rw [hu.held] at hp'
  obtain ⟨b, hb, rfl⟩ := List.mem_map.1 hp'
  obtain ⟨us, vs, rfl⟩ := List.append_of_mem hb
  have hbelow := hu.below b (by simp)
  have hend : FREEMEM_END.toNat ≤ 2 ^ 32 := by decide
  obtain ⟨h', free', hk, hfr⟩ := kfree_forward headers_aligned hu.toForward
    (List.forall_mem_cons.2 ⟨hu.aligned b (by simp), fun n hn => hu.aligned n (by simp [hn])⟩) (hu.live_size b hb)
    (hu.mark b hb) (Nat.le_trans hbelow hend) (hu.cross b hb)
  simp only [MemSys.step, if_pos hp, hk, Option.bind_eq_bind, Option.bind_some, Option.some.injEq] at ht
  obtain ⟨hother, hap⟩ := List.pairwise_cons.1 (hu.live_apart.perm (List.perm_middle.map _) Apart.symm)
  have hlive : ∀ c ∈ us ++ vs, c ∈ us ++ b :: vs ∧ Apart c.span b.span := by
    intro c hc
    refine ⟨?_, (hother _ (List.mem_map_of_mem hc)).symm⟩
    simp only [List.mem_append, List.mem_cons] at hc ⊢
    tauto
  -- the headers of the other blocks are neither on the list nor the one of `b`
  have hkeep : ∀ c ∈ us ++ vs, ∀ g, h'.get c.addr g = s.heap.get c.addr g := by
    intro c hc g
    obtain ⟨hcm, hcb⟩ := hlive c hc
    refine hfr.rest _ g (hu.aligned c (List.mem_append_right _ hcm)) c.nonnull (addr_ne_of_apart hcb) (.inl fun hm => ?_)
    obtain ⟨n, hn, e⟩ := List.mem_map.1 hm
    exact addr_ne_of_apart (hu.cross c hcm n hn) e.symm
  have hfree : ∀ n ∈ free', n.addr = b.addr ∨ ∃ m ∈ free, m.addr = n.addr := by
    intro n hn
    obtain ⟨m, hm, e⟩ := hfr.sub n hn
    rcases List.mem_cons.1 hm with rfl | hm
    · exact .inl e.symm
    · exact .inr ⟨m, hm, e⟩
  subst ht
  refine ⟨free', us ++ vs, hfr.toForward, fun n hn => ?_, fun n hn => ?_, hap, fun c hc n hn => ?_, fun c hc => ?_,
    fun c hc => ?_, fun n hn => ?_, ?_⟩
  · rcases List.mem_append.1 hn with hn | hn
    · rcases hfree n hn with e | ⟨m, hm, e⟩
      · exact e ▸ hu.aligned b (by simp)
      · exact e ▸ hu.aligned m (by simp [hm])
    · exact hu.aligned n (List.mem_append_right _ (hlive n hn).1)
  · rcases List.mem_append.1 hn with hn | hn
    · exact hfr.below (fun m hm => hu.below m (by simp [hm])) hbelow n hn
    · exact hu.below n (List.mem_append_right _ (hlive n hn).1)
  · refine apart_of_not_covers (fun x hlo hhi hx => ?_) n.span (List.mem_map_of_mem hn)
    obtain ⟨hcm, hcb⟩ := hlive c hc
    rcases (hfr.covers x).1 hx with hx | hx
    · refine not_covers_of_apart (fun t ht => ?_) hlo hhi hx
      obtain ⟨m, hm, rfl⟩ := List.mem_map.1 ht
      exact hu.cross c hcm m hm
    · simp only [Apart] at hcb
      omega
  · exact (hkeep c hc _).trans (hu.live_size c (hlive c hc).1)
  · exact (hkeep c hc _).trans (hu.mark c (hlive c hc).1)
  · rcases hfree n hn with e | ⟨m, hm, e⟩
    · rw [e, hfr.unmarked]
      exact (dataStart_ne hbelow).symm
    · rw [← e, hfr.rest _ _ (hu.aligned m (by simp [hm])) m.nonnull (addr_ne_of_apart (hu.cross b (by simp) m hm)).symm
        (.inr rfl)]
      exact hu.unmarked m hm
  · rw [hu.held]
    exact erase_held (f := Node.addr) fun c hc => addr_ne_of_apart (hlive c (by simp [hc])).2

theorem step {e : MemEvent} {s' : MemSys} (hu : Unmarked s free live) (hok : TakesSafely s e)
    (ht : MemSys.step e s = some s') : ∃ free' live', Unmarked s' free' live' := by
  cases e with
  | kmalloc size => exact hu.kmalloc hok ht
  | kfree ptr => exact hu.kfree ht
  | write a c =>
    by_cases hp : ∃ p ∈ s.live, InPayload s.heap p a
    · simp only [MemSys.step, if_pos hp, Option.some.injEq] at ht
      exact ⟨free, live, ht ▸ hu.write hp⟩
    · simp only [MemSys.step, if_neg hp, reduceCtorEq] at ht

end Unmarked

/-! ## Checking a run -/

theorem freeNodes_free {h : Heap} {fuel : Nat} {n : Word} {ns : List Word} (hs : freeNodes h fuel n = some ns)
    (hn : n ≠ 0 → FreeNode h n) {a : Word} (ha : a ∈ ns) : FreeNode h a := by
  induction fuel generalizing n ns with
  | zero => cases hs
  | succ fuel ih =>
    unfold freeNodes at hs
    split at hs
    · cases hs
      cases ha
    · next h0 =>
      obtain ⟨rest, hr, rfl⟩ := Option.map_eq_some_iff.1 hs
      rcases List.mem_cons.1 ha with rfl | ha
      · exact hn h0
      · exact ih hr (fun hne => (hn h0).next hne) ha

def backRight (h : Heap) (n : Word) : Bool :=
  if h.get n .prev = 0 then decide (h.freeList = n)
  else decide (h.get (h.get n .prev) .next = n) &&
    (freeNodes h 64 h.freeList).any fun ns => ns.any fun a => decide (a = h.get n .prev)

theorem backRight_ok {h : Heap} {n : Word} (ht : backRight h n = true) : BackRight h n := by
  unfold backRight at ht
  unfold BackRight
  split at ht
  · next h0 =>
    rw [if_pos h0]
    exact of_decide_eq_true ht
  · next h0 =>
    rw [if_neg h0]
    rw [Bool.and_eq_true] at ht
    obtain ⟨ns, hs, hany⟩ := (Option.any_eq_true ..).1 ht.2
    obtain ⟨a, ha, e⟩ := List.any_eq_true.1 hany
    obtain rfl := of_decide_eq_true e
    exact ⟨freeNodes_free hs .head ha, of_decide_eq_true ht.1⟩

/-- A call whose node can be seen to be taken safely. -/
def takesSafely (s : MemSys) : MemEvent → Bool
  | .kmalloc size => (kmalloc_walk s.heap (align16 size) WALK_FUEL s.heap.freeList).all fun n =>
    decide (n = 0) || backRight s.heap n && decide (0 < (s.heap.get n .size - align16 size - SIZEOF_MEMHEADER).toInt →
      s.heap.get (dataStart n + align16 size) .sanityCheck ≠ dataStart (dataStart n + align16 size))
  | _ => true

theorem takesSafely_ok {s : MemSys} {e : MemEvent} (ht : takesSafely s e = true) : TakesSafely s e := by
  cases e with
  | kmalloc size =>
    intro n _ hw h0
    simp only [takesSafely, hw, Option.all_some, Bool.or_eq_true, Bool.and_eq_true, decide_eq_true_eq] at ht
    obtain ⟨hback, hmark⟩ := ht.resolve_left h0
    exact ⟨backRight_ok hback, hmark⟩
  | _ => trivial

/-! ## Results -/

/-- In every run whose calls of `kmalloc` take their nodes safely, a second
`kfree` of a block that is on the free list does nothing. -/
theorem double_free_guarded {freemem : Word} (hF : (align16 freemem).toNat < HOLESTART.toNat) {s : MemSys}
    (hs : Reach MemSys.step (MemSys.Init freemem) TakesSafely s) : GuardHolds s := by
  obtain ⟨free, live, hu⟩ := hs.inv (fun s => ∃ free live, Unmarked s free live) (fun _ h => Unmarked.init hF h)
    fun _ _ _ ⟨_, _, h⟩ ho ht => h.step ho ht
  exact hu.guard

/-- The first block is written and freed, and `kmalloc` takes the node behind it. -/
theorem double_free_guarded_kfree : ∃ s, Reach MemSys.step (MemSys.Init 0x20000) TakesSafely s ∧
    s.live = [0x20050, 0x20030] ∧ FreeNode s.heap 0x20000 ∧ GuardHolds s := by
  have h0 : Reach MemSys.step (MemSys.Init 0x20000) TakesSafely _ := .start ⟨fun _ => 0, rfl⟩
  obtain ⟨s, hs, ht⟩ := h0.exec_ok takesSafely (fun _ _ => takesSafely_ok)
    [.kmalloc 16, .kmalloc 16, .write 0x2001C 0x10, .kfree 0x20010, .kmalloc 32]
    (fun s => decide (s.live = [0x20050, 0x20030] ∧ s.heap.freeList = 0x20000)) (by decide +kernel)
  obtain ⟨hlive, hfree⟩ := of_decide_eq_true ht
  exact ⟨s, hs, hlive, hfree ▸ .head (by rw [hfree]; decide), double_free_guarded (by decide) hs⟩

/-- A `kmalloc` that splits the first node. -/
theorem step_kmalloc_split {h : Heap} {live : List Word} (size n m r v : Word) (hs : 0 < size.toInt)
    (hw : kmalloc_walk h (align16 size) WALK_FUEL h.freeList = some n) (hn : Aligned n) (hn0 : n ≠ 0) (hm : Aligned m)
    (hr : Aligned r) (hnr : n ≠ r) (hnm : n ≠ m) (hp : dataStart n ≠ 0) (hq : h.get n .prev = 0) (er : h.get n .next = r)
    (em : dataStart n + align16 size = m) (ev : h.get n .size - align16 size - SIZEOF_MEMHEADER = v) (hv : 0 < v.toInt) :
    MemSys.step (.kmalloc size) ⟨h, live⟩ =
      some ⟨(((h.set m .size v).set m .next r).putPrev r m).handOut n 0 m (align16 size), dataStart n :: live⟩ := by
  have hk : kmalloc h size = some (dataStart n, kmalloc_take h (align16 size) n) := by
    simp only [kmalloc, if_neg (Int.not_le.2 hs), hw, Option.bind_eq_bind, Option.bind_some, if_neg hn0]
  simp only [MemSys.step, hk, Option.bind_eq_bind, Option.bind_some, if_neg hp]
  rw [kmalloc_take_split hn hn0 hr hnr hm hnm (ev.symm ▸ hv) hq er em, ev]

/-- A `kfree` directly below the first node. -/
theorem step_kfree_front {h : Heap} {live : List Word} (a n r v : Word) (hp : dataStart a ∈ live) (ha : Aligned a)
    (hn : Aligned n) (hn0 : n ≠ 0) (hr : Aligned r) (hra : r ≠ a) (hrn : r ≠ n)
    (hmark : h.get a .sanityCheck = dataStart a) (hfl : h.freeList = n) (hlt : a < n)
    (hadj : dataStart a + h.get a .size = n) (er : h.get n .next = r) (hlast : h.get r .next = 0)
    (ev : h.get a .size + (h.get n .size + SIZEOF_MEMHEADER) = v) :
    MemSys.step (.kfree (dataStart a)) ⟨h, live⟩ =
      some ⟨({ ((h.unmark a).set n .prev a).set a .next n with freeList := a }.set a .size v).set a .next r,
        live.erase (dataStart a)⟩ := by
  have han : a ≠ n := by
    rintro rfl
    bv_omega
  subst hfl
  set n := h.freeList
  set h1 : Heap := { ((h.unmark a).set n .prev a).set a .next n with freeList := a } with hh1
  have hget {c : Word} {g : HdrField} (hc : Aligned c) : h1.get c g =
      if c = a ∧ g = .next then n else if c = n ∧ g = .prev then a else if c = a ∧ g ≠ .size then 0 else h.get c g := by
    change (((h.unmark a).set n .prev a).set a .next n).get c g = _
    rw [Heap.get_set _ _ _ _ ha hc, Heap.get_set _ _ _ _ hn hc, Heap.get_unmark headers_aligned ha hc]
  have hins : kfree_insert (h.unmark a) a = some h1 := by
    have hf : (h.unmark a).freeList = n := rfl
    unfold kfree_insert
    rw [if_neg (hf ▸ hn0), if_pos (hf ▸ hlt)]
    rfl
  have hlow : coalesce_lower h1 a = (h1, a) := by
    refine coalesce_lower_skip fun e => e.1 ?_
    rw [hget ha, if_neg (by simp), if_neg (by simp [han]), if_pos (by simp)]
  have hnext : h1.get a .next = n := by rw [hget ha, if_pos ⟨rfl, rfl⟩]
  have hsa : h1.get a .size = h.get a .size := by
    rw [hget ha, if_neg (by simp), if_neg (by simp), if_neg (by simp)]
  have hsn : h1.get n .size = h.get n .size := by
    rw [hget hn, if_neg (by simp), if_neg (by simp), if_neg (by simp)]
  have hupper : coalesce_upper h1 a = (h1.set a .size v).set a .next r := by
    have e1 : (h1.set a .size v).get n .next = r := by
      rw [Heap.get_set _ _ _ _ ha hn, if_neg (by simp), hget hn, if_neg (by simp [han.symm]), if_neg (by simp),
        if_neg (by simp [han.symm]), er]
    have e2 : ((h1.set a .size v).set a .next r).get a .next = r := by
      rw [Heap.get_set _ _ _ _ ha ha, if_pos ⟨rfl, rfl⟩]
    have e3 : ((h1.set a .size v).set a .next r).get r .next = 0 := by
      rw [Heap.get_set _ _ _ _ ha hr, if_neg (by simp [hra]), Heap.get_set _ _ _ _ ha hr, if_neg (by simp), hget hr,
        if_neg (by simp [hra]), if_neg (by simp), if_neg (by simp [hra]), hlast]
    unfold coalesce_upper
    simp only [hnext, hsa, hsn, if_pos (And.intro hn0 hadj), ev, e1, e2, e3, ne_eq, not_true_eq_false, and_false, if_false]
  have hk : kfree h (dataStart a) = some ((h1.set a .size v).set a .next r) := by
    have hhdr : dataStart a - SIZEOF_MEMHEADER = a := hdrOf_dataStart a
    unfold kfree
    rw [hhdr, if_pos hmark]
    change (kfree_insert (h.unmark a) a).bind _ = _
    rw [hins, Option.bind_some, hlow]
    exact congrArg some hupper
  simp only [MemSys.step, if_pos hp, hk, Option.bind_eq_bind, Option.bind_some]

/-- A client stores 0x20030 where `kmalloc` later puts a header: the new free
node carries its own mark. -/
theorem double_free_unguarded : ¬∀ freemem : Word, (align16 freemem).toNat < HOLESTART.toNat →
    ∀ s, Reach MemSys.step (MemSys.Init freemem) Any s → GuardHolds s := by
  intro hall
  have h0 : Reach MemSys.step (MemSys.Init 0x20000) Any _ := .start ⟨fun _ => 0, rfl⟩
  have h1 := h0.next trivial (step_kmalloc_split 64 0x20000 0x20050 HOLEEND 0x7FFA0
    (by decide) (by decide +kernel) rfl (by decide) rfl rfl (by decide) (by decide) (by decide) (by decide +kernel)
    (by decide +kernel) (by decide) (by decide +kernel) (by decide))
  have hw {s : MemSys} {a : Word} {c : Byte} (hs : Reach MemSys.step (MemSys.Init 0x20000) Any s)
      (hp : ∃ p ∈ s.live, InPayload s.heap p a) :
      Reach MemSys.step (MemSys.Init 0x20000) Any { s with heap := { s.heap with mem := s.heap.mem.store8 a c } } :=
    hs.next (e := .write a c) trivial (by simp only [MemSys.step, if_pos hp])
  have hp (a : Word) (h : a - 0x20010 < 64) (s : MemSys) (hl : s.live = [0x20010]) (hs : s.heap.get 0x20000 .size = 64) :
      ∃ p ∈ s.live, InPayload s.heap p a := by
    refine ⟨0x20010, by simp [hl], ?_⟩
    unfold InPayload
    exact hs.symm ▸ h
  have h2 := hw (a := 0x2002C) (c := 0x30) h1 (hp _ (by decide) _ rfl (by decide +kernel))
  have h3 := hw (a := 0x2002D) (c := 0x00) h2 (hp _ (by decide) _ rfl (by decide +kernel))
  have h4 := hw (a := 0x2002E) (c := 0x02) h3 (hp _ (by decide) _ rfl (by decide +kernel))
  have h5 := hw (a := 0x2002F) (c := 0x00) h4 (hp _ (by decide) _ rfl (by decide +kernel))
  have h6 := h5.next trivial (step_kfree_front 0x20000 0x20050 HOLEEND 0x7FFF0
    (by decide) rfl rfl (by decide) rfl (by decide) (by decide) (by decide +kernel) (by decide +kernel)
    (by decide) (by decide +kernel) (by decide +kernel) (by decide +kernel) (by decide +kernel))
  have h7 := h6.next trivial (step_kmalloc_split 16 0x20000 0x20020 HOLEEND 0x7FFD0
    (by decide) (by decide +kernel) rfl (by decide) rfl rfl (by decide) (by decide) (by decide) (by decide +kernel)
    (by decide +kernel) (by decide) (by decide +kernel) (by decide))
  exact (hall 0x20000 (by decide) _ h7).unmarked 0x20020 (.head (by decide +kernel)) (by decide +kernel)

end Xeros
