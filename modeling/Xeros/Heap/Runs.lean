import Xeros.Heap.Kfree
import Xeros.Lib.Runs
/-!
# Runs of the allocator

From `kmeminit` on, clients call `kmalloc` with any size, `kfree` on the
pointers they hold, and write into their own payloads. As long as no block is
freed directly below a free node that has a successor, blocks never meet each
other or a free node (`blocks_sound`). Such a `kfree` leaves a stale back
pointer, and a later `kmalloc` hands out memory that stays on the free list
(`blocks_overlap`).
-/

namespace Xeros

open Runs Span

/-! ## The system -/

/-- The heap and the pointers the clients hold. -/
structure MemSys where
  heap : Heap
  live : List Word

inductive MemEvent where
  | kmalloc (size : Word)
  | kfree (ptr : Word)
  /-- A client stores a byte. -/
  | write (a : Word) (c : Byte)

/-- The header of a payload. -/
def hdrOf (ptr : Word) : Word := ptr - SIZEOF_MEMHEADER

def InPayload (h : Heap) (ptr a : Word) : Prop := a - ptr < h.get (hdrOf ptr) .size

instance (h : Heap) (ptr a : Word) : Decidable (InPayload h ptr a) := inferInstanceAs (Decidable (_ < _))

instance (h : Heap) (live : List Word) (a : Word) : Decidable (∃ p ∈ live, InPayload h p a) :=
  decidable_of_iff (live.any fun p => decide (InPayload h p a)) (by simp)

def MemSys.step : MemEvent → MemSys → Option MemSys
  | .kmalloc size, s => do
    let (p, h) ← Xeros.kmalloc s.heap size
    some ⟨h, if p = 0 then s.live else p :: s.live⟩
  | .kfree ptr, s =>
    if ptr ∈ s.live then do
      let h ← Xeros.kfree s.heap ptr
      some ⟨h, s.live.erase ptr⟩
    else none
  | .write a c, s =>
    if ∃ p ∈ s.live, InPayload s.heap p a then
      some { s with heap := { s.heap with mem := s.heap.mem.store8 a c } }
    else none

/-- After `kmeminit`, over any memory. -/
def MemSys.Init (freemem : Word) (s : MemSys) : Prop :=
  ∃ m, s = ⟨kmeminit freemem { mem := m, freeList := 0 }, []⟩

/-- The nodes `freeList` leads to. -/
inductive FreeNode (h : Heap) : Word → Prop
  | head : h.freeList ≠ 0 → FreeNode h h.freeList
  | next {n : Word} : FreeNode h n → h.get n .next ≠ 0 → FreeNode h (h.get n .next)

/-- A header and the bytes of its recorded size. -/
def extent (h : Heap) (hdr : Word) : Span :=
  ⟨hdr.toNat, hdr.toNat + 16 + (h.get hdr .size).toNat, by omega⟩

/-- Live blocks meet neither each other nor a free node, and lie inside the arena. -/
structure BlocksSound (freemem : Word) (s : MemSys) : Prop where
  disjoint : s.live.Pairwise fun p q => Apart (extent s.heap (hdrOf p)) (extent s.heap (hdrOf q))
  free : ∀ p ∈ s.live, ∀ n, FreeNode s.heap n → Apart (extent s.heap (hdrOf p)) (extent s.heap n)
  inside : ∀ p ∈ s.live,
    ((align16 freemem).toNat ≤ (extent s.heap (hdrOf p)).lo ∧ (extent s.heap (hdrOf p)).hi ≤ HOLESTART.toNat) ∨
    (HOLEEND.toNat ≤ (extent s.heap (hdrOf p)).lo ∧ (extent s.heap (hdrOf p)).hi ≤ FREEMEM_END.toNat)

/-- The block of `ptr` is not followed directly by a free node that has a successor. -/
def NoFreeAbove (s : MemSys) : MemEvent → Prop
  | .kfree ptr => ∀ n, FreeNode s.heap n → n = ptr + s.heap.get (hdrOf ptr) .size → s.heap.get n .next = 0
  | _ => True

/-! ## The invariant -/

/-- The two regions `kmeminit` sets up. -/
def arena (freemem : Word) (h : (align16 freemem).toNat < HOLESTART.toNat) : Arena where
  regions := [⟨(align16 freemem).toNat, HOLESTART.toNat, h⟩, ⟨HOLEEND.toNat, FREEMEM_END.toNat, by decide⟩]
  separate := by
    have hh : HOLESTART.toNat < HOLEEND.toNat := by decide
    intro r hr r' hr'
    simp only [List.mem_cons, List.not_mem_nil, or_false] at hr hr'
    rcases hr with rfl | rfl <;> rcases hr' with rfl | rfl <;> simp [hh]
  below := by
    intro r hr
    simp only [List.mem_cons, List.not_mem_nil, or_false] at hr
    rcases hr with rfl | rfl
    · exact (by decide : HOLESTART.toNat ≤ FREEMEM_END.toNat)
    · exact Nat.le_refl _

/-- The pointers the clients hold are the payloads of the live blocks. -/
def Holds (A : Arena) (s : MemSys) : Prop :=
  ∃ free live, Represents A s.heap free live ∧ s.live = live.map fun b => dataStart b.addr

@[simp] theorem hdrOf_dataStart (a : Word) : hdrOf (dataStart a) = a := by
  simp only [hdrOf, dataStart, SIZEOF_MEMHEADER]
  bv_omega

section
variable {A : Arena} {h h' : Heap} {free live : List Block}

theorem Represents.mem_of_freeNode (hr : Represents A h free live) {n : Word} (hn : FreeNode h n) :
    ∃ b ∈ free, b.addr = n := by
  induction hn with
  | head h0 =>
    rw [hr.freeList_eq] at h0 ⊢
    rcases head_addr free with e | hb
    · exact absurd e h0
    · exact hb
  | next _ h0 ih =>
    obtain ⟨b, hb, rfl⟩ := ih
    obtain ⟨xs, ys, rfl⟩ := List.append_of_mem hb
    rw [hr.links.2] at h0 ⊢
    rcases head_addr ys with e | ⟨c, hc, e⟩
    · exact absurd e h0
    · exact ⟨c, by simp [hc], e⟩

theorem Represents.freeNode {xs ys : List Block} {b : Block} (hr : Represents A h (xs ++ b :: ys) live) :
    FreeNode h b.addr := by
  induction xs using List.reverseRecOn generalizing b ys with
  | nil =>
    have hf : h.freeList = b.addr := hr.freeList_eq
    exact hf ▸ FreeNode.head (hf ▸ b.nonnull)
  | append_singleton xs a ih =>
    have hr' : Represents A h (xs ++ a :: (b :: ys)) live := by simpa using hr
    have hn : h.get a.addr .next = b.addr := hr'.links.2
    exact hn ▸ FreeNode.next (ih hr') (hn ▸ b.nonnull)

theorem Represents.extent (hr : Represents A h free live) {b : Block} (hb : b ∈ free ++ live) :
    Xeros.extent h b.addr = b.span := by
  simp only [Xeros.extent, Block.span, hr.size b hb]

/-- What the invariant says about the blocks. -/
theorem Holds.sound {freemem : Word} {hF : (align16 freemem).toNat < HOLESTART.toNat} {s : MemSys}
    (hs : Holds (arena freemem hF) s) : BlocksSound freemem s := by
  obtain ⟨free, live, hr, hl⟩ := hs
  have hp := hr.packed
  rw [List.map_append] at hp
  obtain ⟨-, hlive, hcross⟩ := List.pairwise_append.1 hp.apart
  refine ⟨?_, fun p hpl n hn => ?_, fun p hpl => ?_⟩
  · rw [hl, List.pairwise_map]
    rw [List.pairwise_map] at hlive
    refine hlive.imp_of_mem fun {b c} hb hc hbc => ?_
    rw [hdrOf_dataStart, hdrOf_dataStart, hr.extent (by simp [hb]), hr.extent (by simp [hc])]
    exact hbc
  · rw [hl] at hpl
    obtain ⟨b, hb, rfl⟩ := List.mem_map.1 hpl
    obtain ⟨c, hc, rfl⟩ := hr.mem_of_freeNode hn
    rw [hdrOf_dataStart, hr.extent (by simp [hb]), hr.extent (by simp [hc])]
    exact (hcross _ (List.mem_map_of_mem hc) _ (List.mem_map_of_mem hb)).symm
  · rw [hl] at hpl
    obtain ⟨b, hb, rfl⟩ := List.mem_map.1 hpl
    rw [hdrOf_dataStart, hr.extent (by simp [hb])]
    obtain ⟨r, hr', hw⟩ := hr.packed.within b.span (List.mem_map_of_mem (by simp [hb]))
    simp only [arena, List.mem_cons, List.not_mem_nil, or_false] at hr'
    rcases hr' with rfl | rfl
    · exact .inl hw
    · exact .inr hw

theorem Holds.perm {s : MemSys} {ptrs : List Word} (hs : Holds A s) (hp : s.live.Perm ptrs) : Holds A ⟨s.heap, ptrs⟩ := by
  obtain ⟨free, live, hr, hl⟩ := hs
  rw [hl] at hp
  have hsame : List.Forall₂ (fun p (b : Block) => p = dataStart b.addr) (live.map fun b => dataStart b.addr) live :=
    List.forall₂_map_left_iff.2 (List.forall₂_same.2 fun _ _ => rfl)
  obtain ⟨live', hptrs, hlive⟩ := List.perm_comp_forall₂ hp.symm hsame
  refine ⟨free, live', hr.perm hlive.symm, ?_⟩
  have heq := List.forall₂_map_right_iff.2 hptrs
  rwa [List.forall₂_eq_eq_eq] at heq

/-- Some of the pointers may be forgotten. -/
theorem Holds.subperm {s : MemSys} {ptrs : List Word} (hs : Holds A s) (hp : ptrs.Subperm s.live) :
    Holds A ⟨s.heap, ptrs⟩ := by
  obtain ⟨free, live, hr, hl⟩ := hs
  obtain ⟨l, hperm, hsub⟩ := hp
  rw [hl] at hsub
  obtain ⟨live', hlive, rfl⟩ := List.sublist_map_iff.1 hsub
  have hmem : ∀ b ∈ free ++ live', b ∈ free ++ live := fun b hb =>
    (List.Sublist.append_left hlive free).subset hb
  have hr' : Represents A s.heap free live' := by
    refine ⟨hr.list, fun b hb => hr.size b (hmem b hb), fun b hb => hr.mark b (hlive.subset hb), ?_, ?_⟩
    · exact hr.packed.apart.sublist ((hlive.append_left free).map Block.span)
    · intro t ht
      obtain ⟨b, hb, rfl⟩ := List.mem_map.1 ht
      exact hr.packed.within b.span (List.mem_map_of_mem (hmem b hb))
  have h' : Holds A ⟨s.heap, live'.map fun b => dataStart b.addr⟩ := ⟨free, live', hr', rfl⟩
  exact h'.perm hperm

/-- No pointer is held twice. -/
theorem Holds.nodup {s : MemSys} (hs : Holds A s) : s.live.Nodup := by
  obtain ⟨free, live, hr, hl⟩ := hs
  have hp := addr_nodup hr.packed
  rw [List.map_append] at hp
  rw [hl, ← Function.comp_def dataStart Block.addr, ← List.map_map]
  refine (List.nodup_append.1 hp).2.1.map fun a b e => ?_
  rw [← hdrOf_dataStart a, e, hdrOf_dataStart]

/-! ## Steps keep it -/

theorem aligned_HOLEEND : Aligned HOLEEND := rfl

/-- The fields of the header of a free node. -/
def headerOf (size prev next : Word) : HdrField → Word
  | .size => size
  | .prev => prev
  | .next => next
  | .sanityCheck => 0

/-- `kmeminit` as a list: nothing when the first node would be at `NULL`. -/
theorem represents_kmeminit {freemem : Word} (hF : (align16 freemem).toNat < HOLESTART.toNat) (h : Heap) :
    ∃ free, Represents (arena freemem hF) (kmeminit freemem h) free [] ∧ Spaced (free.map Block.span) ∧
      ∀ b ∈ free, (kmeminit freemem h).get b.addr .sanityCheck = 0 := by
  have ha := aligned_align16 freemem
  have hfl : (kmeminit freemem h).freeList = align16 freemem := rfl
  by_cases h0 : align16 freemem = 0
  · refine ⟨[], ⟨⟨?_, by simp⟩, by simp, by simp, ⟨.nil, by simp⟩⟩, .nil, by simp⟩
    refine List.isChain_cons_cons.2 ⟨⟨?_, fun e => absurd rfl e⟩, by simp⟩
    rw [Heap.ptrs_fw_null, hfl, h0]
  have hHS : HOLESTART.toNat = 0xA0000 := rfl
  have hHE : HOLEEND.toNat = 0x196000 := rfl
  have hne : align16 freemem ≠ HOLEEND := by
    intro e
    rw [e] at hF
    omega
  have hsz : (HOLESTART - SIZEOF_MEMHEADER - align16 freemem).toNat = 0xA0000 - 16 - (align16 freemem).toNat := by
    unfold Aligned at ha
    rw [show HOLESTART - SIZEOF_MEMHEADER = 0x9FFF0 from rfl]
    bv_omega
  let n : Block := {
    addr := align16 freemem
    size := HOLESTART - SIZEOF_MEMHEADER - align16 freemem
    aligned := ha
    size_aligned := by
      unfold Aligned at ha ⊢
      rw [hsz]
      omega
    nonnull := h0 }
  let m : Block := ⟨HOLEEND, FREEMEM_END - HOLEEND - SIZEOF_MEMHEADER, aligned_HOLEEND, rfl, by decide⟩
  have hn (g : HdrField) : (kmeminit freemem h).get n.addr g = headerOf n.size 0 HOLEEND g := by
    unfold kmeminit
    simp only [Heap.get_set _ _ _ _ ha n.aligned, Heap.get_set _ _ _ _ aligned_HOLEEND n.aligned]
    cases g <;> simp [headerOf, n, hne]
  have hm (g : HdrField) : (kmeminit freemem h).get m.addr g = headerOf m.size n.addr 0 g := by
    unfold kmeminit
    simp only [Heap.get_set _ _ _ _ ha m.aligned, Heap.get_set _ _ _ _ aligned_HOLEEND m.aligned]
    cases g <;> simp [headerOf, n, m]
  have hnm : n.span.hi = HOLESTART.toNat := by
    unfold Aligned at ha
    simp only [Block.span, n, hsz]
    omega
  have hml : m.span.lo = HOLEEND.toNat ∧ m.span.hi = FREEMEM_END.toNat := by decide
  have hnlt : n.span.hi < m.span.lo := by omega
  refine ⟨[n, m], ⟨⟨?_, ?_⟩, ?_, by simp, ?_, ?_⟩, ?_, ?_⟩
  · refine List.isChain_cons_cons.2 ⟨⟨by rw [Heap.ptrs_fw_null, hfl], fun _ => hn .prev⟩, ?_⟩
    refine List.isChain_cons_cons.2 ⟨⟨?_, fun _ => hm .prev⟩, ?_⟩
    · rw [Heap.ptrs_fw _ n.nonnull, hn .next]
      rfl
    · refine List.isChain_cons_cons.2 ⟨⟨?_, fun e => absurd rfl e⟩, by simp⟩
      rw [Heap.ptrs_fw _ m.nonnull, hm .next]
      rfl
  · refine List.nodup_cons.2 ⟨?_, List.nodup_cons.2 ⟨?_, by simp⟩⟩
    · simp only [List.map_cons, List.map_nil, List.mem_cons, List.not_mem_nil, or_false, not_or]
      exact ⟨n.nonnull.symm, m.nonnull.symm⟩
    · simpa using hne
  · intro b hb
    simp only [List.append_nil, List.mem_cons, List.not_mem_nil, or_false] at hb
    rcases hb with rfl | rfl
    · exact hn .size
    · exact hm .size
  · refine List.pairwise_cons.2 ⟨?_, by simp⟩
    intro t ht
    obtain rfl : t = m.span := by simpa using ht
    left
    omega
  · intro t ht
    simp only [List.append_nil, List.map_cons, List.map_nil, List.mem_cons, List.not_mem_nil, or_false] at ht
    rcases ht with rfl | rfl
    · exact ⟨_, List.mem_cons_self, Nat.le_refl _, Nat.le_of_eq hnm⟩
    · exact ⟨_, List.mem_cons_of_mem _ (List.mem_singleton_self _), Nat.le_of_eq hml.1.symm, Nat.le_of_eq hml.2⟩
  · exact List.pairwise_cons.2 ⟨by simpa using hnlt, by simp⟩
  · intro b hb
    simp only [List.mem_cons, List.not_mem_nil, or_false] at hb
    rcases hb with rfl | rfl
    · exact hn .sanityCheck
    · exact hm .sanityCheck

theorem holds_init {freemem : Word} (hF : (align16 freemem).toNat < HOLESTART.toNat) {s : MemSys}
    (hs : MemSys.Init freemem s) : Holds (arena freemem hF) s := by
  obtain ⟨m, rfl⟩ := hs
  obtain ⟨free, hr, -⟩ := represents_kmeminit hF { mem := m, freeList := 0 }
  exact ⟨free, [], hr, rfl⟩

theorem Holds.kmalloc {s : MemSys} (hs : Holds A s) (size : Word) :
    ∃ s', MemSys.step (.kmalloc size) s = some s' ∧ Holds A s' := by
  obtain ⟨free, live, hr, hl⟩ := hs
  rcases kmalloc_spec hr size with ⟨hk, -⟩ | ⟨xs, n, ys, rest, b, h', -, -, -, -, -, -, hk, hr'⟩
  · refine ⟨s, ?_, free, live, hr, hl⟩
    simp only [MemSys.step, hk, Option.bind_eq_bind, Option.bind_some, if_pos]
  · refine ⟨⟨h', dataStart b.addr :: s.live⟩, ?_, _, _, hr', by rw [hl]; rfl⟩
    have h0 : dataStart b.addr ≠ 0 := by
      have hb := hr'.below (b := b) (by simp)
      simp only [dataStart, SIZEOF_MEMHEADER]
      bv_omega
    simp only [MemSys.step, hk, Option.bind_eq_bind, Option.bind_some, if_neg h0]

/-- The pointer of `b` is taken out where `b` is. -/
theorem erase_held {α : Type} {f : α → Word} {us vs : List α} {b : α} (hu : ∀ c ∈ us, f c ≠ f b) :
    ((us ++ b :: vs).map fun c => dataStart (f c)).erase (dataStart (f b)) = (us ++ vs).map fun c => dataStart (f c) := by
  have hno : dataStart (f b) ∉ us.map fun c => dataStart (f c) := by
    intro hm
    obtain ⟨c, hc, e⟩ := List.mem_map.1 hm
    apply hu c hc
    rw [← hdrOf_dataStart (f c), e, hdrOf_dataStart]
  rw [List.map_append, List.erase_append_right _ hno, List.map_cons, List.erase_cons_head, List.map_append]

theorem Holds.kfree {s : MemSys} (hs : Holds A s) {ptr : Word} (hp : ptr ∈ s.live) (hok : NoFreeAbove s (.kfree ptr)) :
    ∃ s', MemSys.step (.kfree ptr) s = some s' ∧ Holds A s' := by
  obtain ⟨free, live, hr, hl⟩ := hs
  rw [hl] at hp
  obtain ⟨b, hb, rfl⟩ := List.mem_map.1 hp
  obtain ⟨us, vs, rfl⟩ := List.append_of_mem hb
  have hr' : Represents A s.heap free (b :: (us ++ vs)) := hr.perm List.perm_middle
  have herase : s.live.erase (dataStart b.addr) = (us ++ vs).map fun b => dataStart b.addr := by
    have hr2 : Represents A s.heap ([] ++ [] ++ free) ([b] ++ (us ++ vs)) := by simpa using hr'
    rw [hl]
    refine erase_held (f := Block.addr) fun c hc => ?_
    exact addr_ne hr2.packed_edit c (by simp [hc])
  obtain ⟨free', h', hk, hr'', -⟩ := kfree_spec hr' fun n hn e => by
    obtain ⟨xs, ys, rfl⟩ := List.append_of_mem hn
    refine hok n.addr hr.freeNode ?_
    rw [hdrOf_dataStart, hr.size b (by simp), e]
  refine ⟨⟨h', _⟩, ?_, free', us ++ vs, hr'', herase⟩
  simp only [MemSys.step, hl, if_pos hp, hk, Option.bind_eq_bind, Option.bind_some]

theorem Holds.write {s : MemSys} (hs : Holds A s) {a : Word} {c : Byte} (hp : ∃ p ∈ s.live, InPayload s.heap p a) :
    Holds A { s with heap := { s.heap with mem := s.heap.mem.store8 a c } } := by
  obtain ⟨free, live, hr, hl⟩ := hs
  obtain ⟨p, hpl, hpa⟩ := hp
  rw [hl] at hpl
  obtain ⟨b, hb, rfl⟩ := List.mem_map.1 hpl
  rw [InPayload, hdrOf_dataStart, hr.size b (by simp [hb])] at hpa
  refine ⟨free, live, hr.congr rfl fun d hd g => ?_, hl⟩
  refine Mem.load32_congr fun x hx => Mem.store8_ne _ _ ?_
  rintro rfl
  -- the byte lies in the payload of `b`, the word in the header of `d`
  have hbb := hr.below (b := b) (by simp [hb])
  have hdb := hr.below hd
  have hdis : d.addr = b.addr ∨ Apart d.span b.span := by
    by_cases e : d.addr = b.addr
    · exact .inl e
    · exact .inr (hr.apart hd (by simp [hb]) e)
  simp only [Apart, Block.span] at hdis
  simp only [dataStart, SIZEOF_MEMHEADER] at hpa
  cases g <;> simp only [HdrField.offset] at hx <;> bv_omega

/-- The address lies in the block of `ptr`, its header included. -/
def InBlock (h : Heap) (ptr a : Word) : Prop :=
  (extent h (hdrOf ptr)).lo ≤ a.toNat ∧ a.toNat < (extent h (hdrOf ptr)).hi

theorem MemSys.step_kfree {s s' : MemSys} {ptr : Word} (ht : MemSys.step (.kfree ptr) s = some s') :
    ptr ∈ s.live ∧ ∃ h, Xeros.kfree s.heap ptr = some h ∧ s' = ⟨h, s.live.erase ptr⟩ := by
  by_cases hp : ptr ∈ s.live
  · simp only [MemSys.step, if_pos hp] at ht
    obtain ⟨h, hk, ht⟩ := Option.bind_eq_some_iff.1 ht
    exact ⟨hp, h, hk, (Option.some.inj ht).symm⟩
  · simp only [MemSys.step, if_neg hp, reduceCtorEq] at ht

/-- A call of the allocator leaves the other blocks alone. -/
theorem Holds.step_same {s s' : MemSys} {e : MemEvent} (hs : Holds A s) (hok : NoFreeAbove s e)
    (ht : MemSys.step e s = some s') {q : Word} (hq : q ∈ s.live) (hfree : e ≠ .kfree q) (hwrite : ∀ a c, e ≠ .write a c)
    {c : Word} (hc : Aligned c) (hin : InBlock s.heap q c) (g : HdrField) : s'.heap.get c g = s.heap.get c g := by
  obtain ⟨free, live, hr, hl⟩ := hs
  have hql := hq
  rw [hl] at hql
  obtain ⟨d, hd, rfl⟩ := List.mem_map.1 hql
  rw [InBlock, hdrOf_dataStart, hr.extent (by simp [hd])] at hin
  have hc0 : c ≠ 0 := by
    rintro rfl
    have hd0 : d.addr.toNat ≠ BitVec.toNat (0 : Word) := fun e => d.nonnull (BitVec.eq_of_toNat_eq e)
    have h0 : BitVec.toNat (0 : Word) = 0 := rfl
    simp only [Block.span] at hin
    omega
  -- the block of `d` lies apart from every other one
  have hout : ∀ n ∈ free ++ live, n.addr ≠ d.addr → c.toNat < n.addr.toNat ∨ n.addr.toNat + 16 + n.size.toNat ≤ c.toNat := by
    intro n hn hne
    have hap := hr.apart hn (c := d) (by simp [hd]) hne
    simp only [Apart, Block.span] at hap hin
    omega
  have hfreeOut : ∀ n ∈ free, n.addr ≠ d.addr := by
    intro n hn
    obtain ⟨xs, ys, rfl⟩ := List.append_of_mem hn
    exact (hr.ne_addr d (by simp [hd])).symm
  cases e with
  | kmalloc size =>
    obtain ⟨⟨p, h'⟩, hk, ht⟩ := Option.bind_eq_some_iff.1 ht
    cases ht
    exact kmalloc_same hr hk g hc hc0 fun n hn => hout n (by simp [hn]) (hfreeOut n hn)
  | kfree ptr =>
    obtain ⟨hp, h', hk, rfl⟩ := MemSys.step_kfree ht
    rw [hl] at hp
    obtain ⟨b, hb, rfl⟩ := List.mem_map.1 hp
    have hbd : b.addr ≠ d.addr := by
      intro e
      apply hfree
      rw [e]
    obtain ⟨us, vs, rfl⟩ := List.append_of_mem hb
    obtain ⟨free', h1, hk1, -, hsame⟩ := kfree_spec (hr.perm List.perm_middle) fun n hn e => by
      obtain ⟨xs, ys, rfl⟩ := List.append_of_mem hn
      refine hok n.addr hr.freeNode ?_
      rw [hdrOf_dataStart, hr.size b (by simp), e]
    cases hk1.symm.trans hk
    refine hsame c g hc hc0 fun n hn e => ?_
    have ho : c.toNat < n.addr.toNat ∨ n.addr.toNat + 16 + n.size.toNat ≤ c.toNat := by
      rcases List.mem_cons.1 hn with rfl | hn
      · exact hout n (by simp) hbd
      · exact hout n (by simp [hn]) (hfreeOut n hn)
    rw [e] at ho
    omega
  | write a c' => exact absurd rfl (hwrite a c')

/-- Every step that meets the condition keeps the invariant. -/
theorem Holds.step {s s' : MemSys} {e : MemEvent} (hs : Holds A s) (hok : NoFreeAbove s e)
    (ht : MemSys.step e s = some s') : Holds A s' := by
  cases e with
  | kmalloc size =>
    obtain ⟨s1, h1, hs1⟩ := hs.kmalloc size
    exact Option.some.inj (h1.symm.trans ht) ▸ hs1
  | kfree ptr =>
    obtain ⟨hp, -⟩ := MemSys.step_kfree ht
    obtain ⟨s1, h1, hs1⟩ := hs.kfree hp hok
    exact Option.some.inj (h1.symm.trans ht) ▸ hs1
  | write a c =>
    by_cases hp : ∃ p ∈ s.live, InPayload s.heap p a
    · simp only [MemSys.step, if_pos hp, Option.some.injEq] at ht
      exact ht ▸ hs.write hp
    · simp only [MemSys.step, if_neg hp, reduceCtorEq] at ht

end

/-! ## Checking a run -/

/-- The free list from `n` on, if it ends within `fuel` nodes. -/
def freeNodes (h : Heap) : Nat → Word → Option (List Word)
  | 0, _ => none
  | fuel + 1, n => if n = 0 then some [] else (freeNodes h fuel (h.get n .next)).map (n :: ·)

theorem freeNodes_mem {h : Heap} {fuel : Nat} {n : Word} {ns : List Word} (hs : freeNodes h fuel n = some ns) :
    (n ≠ 0 → n ∈ ns) ∧ ∀ a ∈ ns, h.get a .next ≠ 0 → h.get a .next ∈ ns := by
  induction fuel generalizing n ns with
  | zero => cases hs
  | succ fuel ih =>
    unfold freeNodes at hs
    split at hs
    · next h0 =>
      cases hs
      exact ⟨fun hne => absurd h0 hne, fun a ha => absurd ha List.not_mem_nil⟩
    · obtain ⟨rest, hr, rfl⟩ := Option.map_eq_some_iff.1 hs
      obtain ⟨hfirst, hnext⟩ := ih hr
      refine ⟨fun _ => List.mem_cons_self, fun a ha hne => ?_⟩
      rcases List.mem_cons.1 ha with rfl | ha
      · exact List.mem_cons_of_mem _ (hfirst hne)
      · exact List.mem_cons_of_mem _ (hnext a ha hne)

theorem FreeNode.mem {h : Heap} {fuel : Nat} {ns : List Word} (hs : freeNodes h fuel h.freeList = some ns) {n : Word}
    (hn : FreeNode h n) : n ∈ ns := by
  obtain ⟨hfirst, hnext⟩ := freeNodes_mem hs
  induction hn with
  | head h0 => exact hfirst h0
  | next _ h0 ih => exact hnext _ ih h0

/-- A test of all nodes of a free list that ends. -/
def allFree (h : Heap) (test : Word → Bool) : Bool := (freeNodes h 64 h.freeList).any fun ns => ns.all test

theorem allFree_ok {h : Heap} {test : Word → Bool} (ht : allFree h test = true) {n : Word} (hn : FreeNode h n) :
    test n = true := by
  obtain ⟨ns, hs, hall⟩ := (Option.any_eq_true ..).1 ht
  exact List.all_eq_true.1 hall n (hn.mem hs)

def noFreeAbove (s : MemSys) : MemEvent → Bool
  | .kfree ptr => allFree s.heap fun n => decide (n = ptr + s.heap.get (hdrOf ptr) .size → s.heap.get n .next = 0)
  | _ => true

theorem noFreeAbove_ok {s : MemSys} {e : MemEvent} (h : noFreeAbove s e = true) : NoFreeAbove s e := by
  cases e with
  | kfree ptr =>
    intro n hn
    exact of_decide_eq_true (allFree_ok h hn)
  | _ => trivial

/-! ## Results -/

/-- In every run in which no block is freed directly below a free node that has
a successor, the blocks are sound. -/
theorem blocks_sound {freemem : Word} (hF : (align16 freemem).toNat < HOLESTART.toNat) {s : MemSys}
    (hs : Reach MemSys.step (MemSys.Init freemem) NoFreeAbove s) : BlocksSound freemem s :=
  (hs.inv (Holds (arena freemem hF)) (fun _ => holds_init hF) fun _ _ _ h ho ht => h.step ho ht).sound

/-- Of two blocks the lower one is written and freed, and its memory is used again. -/
theorem blocks_sound_kfree : ∃ s, Reach MemSys.step (MemSys.Init 0x20000) NoFreeAbove s ∧
    s.live = [0x20010, 0x20030] ∧ BlocksSound 0x20000 s := by
  have h0 : Reach MemSys.step (MemSys.Init 0x20000) NoFreeAbove _ := .start ⟨fun _ => 0, rfl⟩
  obtain ⟨s, hs, ht⟩ := h0.exec_ok noFreeAbove (fun _ _ => noFreeAbove_ok)
    [.kmalloc 16, .kmalloc 16, .write 0x20014 7, .kfree 0x20010, .kmalloc 8]
    (fun s => decide (s.live = [0x20010, 0x20030])) (by decide +kernel)
  exact ⟨s, hs, of_decide_eq_true ht, blocks_sound (by decide) hs⟩

/-- A block freed below the node in front of the hole leaves the node behind the
hole with a stale back pointer; a `kmalloc` of all of it hands it out and leaves
it on the free list. -/
theorem blocks_overlap : ¬∀ freemem : Word, (align16 freemem).toNat < HOLESTART.toNat →
    ∀ s, Reach MemSys.step (MemSys.Init freemem) Any s → BlocksSound freemem s := by
  intro hall
  have h0 : Reach MemSys.step (MemSys.Init 0x20000) Any _ := .start ⟨fun _ => 0, rfl⟩
  obtain ⟨s, hs, ht⟩ := h0.exec_any [.kmalloc 16, .kfree 0x20010, .kmalloc (FREEMEM_END - HOLEEND - SIZEOF_MEMHEADER)]
    (fun s => decide (dataStart HOLEEND ∈ s.live ∧ s.heap.freeList ≠ 0 ∧ s.heap.get s.heap.freeList .next = HOLEEND))
    (by decide +kernel)
  obtain ⟨hl, h0, hn⟩ := of_decide_eq_true ht
  have hfree : FreeNode s.heap HOLEEND := hn ▸ .next (.head h0) (by rw [hn]; decide)
  have hap := (hall 0x20000 (by decide) s hs).free _ hl _ hfree
  rw [hdrOf_dataStart] at hap
  have hlt := (extent s.heap HOLEEND).lt
  unfold Apart at hap
  omega

end Xeros
