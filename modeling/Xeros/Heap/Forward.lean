import Xeros.Heap.Kfree
/-!
# `kfree` and the forward chain

What `kfree` does to the chain of `next` pointers does not depend on the `prev`
pointers of the free nodes: it reads only the one of the block itself, which it
has just set. So the chain stays in order, with a gap between any two nodes,
whatever the `prev` pointers hold, and no byte is lost (`kfree_coalesces`).
-/

namespace Xeros

open DLinks Span

/-! ## Nodes -/

/-- A header with a recorded size, anywhere in memory. -/
structure Node where
  addr : Word
  size : Word
  nonnull : addr ≠ 0

namespace Node

/-- The header and the bytes behind it. -/
def span (n : Node) : Span := ⟨n.addr.toNat, n.addr.toNat + 16 + n.size.toNat, by omega⟩

variable {a b : Node}

/-- The test for a free neighbour, which wraps around at the end of memory. -/
theorem adjacent_iff (ha : a.span.hi ≤ 2 ^ 32) : dataStart a.addr + a.size = b.addr ↔ a.span.hi = b.span.lo := by
  have hb := b.nonnull
  simp only [span] at ha ⊢
  simp only [dataStart, SIZEOF_MEMHEADER]
  constructor
  · intro e
    bv_omega
  · intro e
    bv_omega

/-- Two neighbours form one node. -/
theorem exists_join (hb : b.span.hi ≤ 2 ^ 32) (e : a.span.hi = b.span.lo) :
    ∃ c : Node, c.addr = a.addr ∧ c.size = a.size + (b.size + SIZEOF_MEMHEADER) ∧ c.span = a.span.join b.span e := by
  refine ⟨⟨a.addr, a.size + (b.size + SIZEOF_MEMHEADER), a.nonnull⟩, rfl, rfl, ?_⟩
  have hsize : (a.size + (b.size + SIZEOF_MEMHEADER)).toNat = a.size.toNat + b.size.toNat + 16 := by
    simp only [span] at hb e
    simp only [SIZEOF_MEMHEADER]
    bv_omega
  simp only [span] at e ⊢
  simp only [Span.join, Span.mk.injEq, true_and, hsize]
  omega

end Node

/-- The headers of nodes that do not meet. -/
theorem headers_of_apart {l : List Node} (hfits : ∀ n ∈ l, n.span.hi ≤ 2 ^ 32) (hap : (l.map Node.span).Pairwise Apart) :
    Headers fun a => ∃ n ∈ l, n.addr = a := by
  have hp := List.pairwise_map.1 hap
  have hsym : Std.Symm fun n m : Node => Apart n.span m.span := ⟨fun _ _ => Apart.symm⟩
  rintro _ _ ⟨n, hn, rfl⟩ ⟨m, hm, rfl⟩ f g hne
  by_cases e : m.addr = n.addr
  · rw [e]
    exact HdrField.apart_same fun e' => hne ⟨e, e'⟩
  · have hdis := hp.forall hn hm fun e' => e (by rw [e'])
    have hnf := hfits n hn
    have hmf := hfits m hm
    have hf := f.offset_le
    have hg := g.offset_le
    simp only [Apart, Node.span] at hdis hnf hmf
    unfold Mem.Apart
    constructor <;> bv_omega

/-! ## The chain -/

/-- The free list is `l` in forward direction. -/
structure FreeChain (h : Heap) (l : List Node) : Prop where
  list : FList h.ptrs 0 (l.map Node.addr)
  size : ∀ n ∈ l, h.get n.addr .size = n.size

/-- The chain is in order of address, and its nodes lie in memory and nowhere touch. -/
structure Forward (h : Heap) (free : List Node) : Prop extends FreeChain h free where
  spaced : Spaced (free.map Node.span)
  fits : ∀ n ∈ free, n.span.hi ≤ 2 ^ 32

theorem last_node (xs : List Node) :
    (xs.map Node.addr).getLastD 0 = 0 ∨ ∃ n ∈ xs, n.addr = (xs.map Node.addr).getLastD 0 := by
  rcases getLastD_mem 0 (xs.map Node.addr) with h | h
  · exact .inl h
  · exact .inr (List.mem_map.1 h)

theorem head_node (ys : List Node) :
    (ys.map Node.addr).headD 0 = 0 ∨ ∃ n ∈ ys, n.addr = (ys.map Node.addr).headD 0 := by
  rcases headD_mem 0 (ys.map Node.addr) with h | h
  · exact .inl h
  · exact .inr (List.mem_map.1 h)

namespace FreeChain
variable {h h' : Heap} {xs os ns ys : List Node} {b : Node}

theorem next_eq (hl : FreeChain h (xs ++ b :: ys)) : h.get b.addr .next = (ys.map Node.addr).headD 0 := by
  have hlist := hl.list
  rw [List.map_append, List.map_cons] at hlist
  rw [← Heap.ptrs_fw _ b.nonnull]
  exact hlist.at_node.2

theorem freeList_eq (hl : FreeChain h ns) : h.freeList = (ns.map Node.addr).headD 0 := by
  rw [← Heap.ptrs_fw_null, hl.list.head]

theorem null_not_mem (hl : FreeChain h ns) : (0 : Word) ∉ ns.map Node.addr := (List.nodup_cons.1 hl.list.nodup).1

/-- What a walk over the chain sees. -/
theorem next_chain (hl : FreeChain h ns) : (ns.map Node.addr ++ [0]).IsChain fun x y => h.get x .next = y := by
  have hc := hl.list.chain
  rw [List.cons_append] at hc
  refine isChain_congr hc.of_cons fun x hx y _ hxy => ?_
  rw [List.dropLast_concat] at hx
  rw [← Heap.ptrs_fw _ fun e => hl.null_not_mem (e ▸ hx)]
  exact hxy

/-- Replaces `os` by `ns`; of the other nodes only the pointer in front of the edit may change. -/
theorem edit (hl : FreeChain h (xs ++ os ++ ys)) {q r : Word} (hq : (xs.map Node.addr).getLastD 0 = q)
    (hr : (ys.map Node.addr).headD 0 = r) (hfree : q ≠ 0 → h'.freeList = h.freeList)
    (hsize' : ∀ n ∈ xs ++ ys, h'.get n.addr .size = h.get n.addr .size)
    (hnext' : ∀ n ∈ xs ++ ys, n.addr ≠ q → h'.get n.addr .next = h.get n.addr .next)
    (hmid : (q :: ns.map Node.addr ++ [r]).IsChain fun x y => h'.ptrs.fw x = y)
    (hsize : ∀ n ∈ ns, h'.get n.addr .size = n.size) (hnd : ((xs ++ ns ++ ys).map Node.addr).Nodup) :
    FreeChain h' (xs ++ ns ++ ys) := by
  subst hq hr
  constructor
  · have hlist := hl.list
    simp only [List.map_append] at hlist hnd ⊢
    refine hlist.splice (fun x hx hxq => ?_) hmid (List.nodup_cons.2 ⟨?_, hnd⟩)
    · rcases List.mem_cons.1 hx with rfl | hx
      · rw [Heap.ptrs_fw_null, Heap.ptrs_fw_null, hfree (Ne.symm hxq)]
      · rw [← List.map_append] at hx
        obtain ⟨n, hn, rfl⟩ := List.mem_map.1 hx
        rw [Heap.ptrs_fw _ n.nonnull, Heap.ptrs_fw _ n.nonnull]
        exact hnext' n hn hxq
    · simp only [← List.map_append]
      intro h0
      obtain ⟨n, -, hn⟩ := List.mem_map.1 h0
      exact n.nonnull hn
  · intro n hn
    have hn' : n ∈ xs ++ ys ∨ n ∈ ns := by
      simp only [List.mem_append] at hn ⊢
      tauto
    rcases hn' with hn' | hn'
    · rw [hsize' n hn']
      apply hl.size
      simp only [List.mem_append] at hn' ⊢
      tauto
    · exact hsize n hn'

end FreeChain

/-! ## Linking in and merging -/

section
variable {P : Word → Prop} {h h' : Heap} {us xs ys : List Node} {a b c : Node}

/-- Of the nodes of `l` the fields but `sanityCheck` may change, and nothing else. -/
def KeepsRest (P : Word → Prop) (l : List Word) (h h' : Heap) : Prop :=
  ∀ c g, P c → c ≠ 0 → c ∉ l ∨ g = .sanityCheck → h'.get c g = h.get c g

/-- The forward half of a merge: the node behind `a` is absorbed. -/
structure Absorbs (P : Word → Prop) (h h' : Heap) (a size r : Word) : Prop where
  freeList : h'.freeList = h.freeList
  get : ∀ c g, P c → c ≠ 0 → g ≠ .prev → h'.get c g =
    if c = a ∧ g = .size then size else if c = a ∧ g = .next then r else h.get c g

theorem Merged.absorbs {a size r : Word} (hm : Merged P h h' a size r) : Absorbs P h h' a size r := by
  refine ⟨hm.freeList, fun c g hc hc0 hg => ?_⟩
  rw [hm.get c g hc hc0, if_neg (fun e => hg e.2 : ¬(c = r ∧ g = .prev))]

/-- Linking in touches the block and the nodes next to it. -/
theorem LinkedIn.rest {l : List Word} {q d r : Word} (hl : LinkedIn P h h' q d r) (hq : q ≠ 0 → q ∈ l)
    (hr : r ≠ 0 → r ∈ l) :
    ∀ c g, P c → c ≠ 0 → c ≠ d → c ∉ l ∨ g = .sanityCheck → h'.get c g = h.get c g := by
  intro c g hc hc0 hcd hcg
  have hcq : c = q → g = .sanityCheck := fun e => hcg.resolve_left fun hno => hno (e ▸ hq (e ▸ hc0))
  have hcr : c = r → g = .sanityCheck := fun e => hcg.resolve_left fun hno => hno (e ▸ hr (e ▸ hc0))
  rw [hl.get c g hc hc0, if_neg hcd, if_neg, if_neg]
  · rintro ⟨e, rfl⟩
    exact absurd (hcr e) (by simp)
  · rintro ⟨e, rfl⟩
    exact absurd (hcq e) (by simp)

theorem Merged.keepsRest {l : List Word} {a size r : Word} (hm : Merged P h h' a size r) (ha : a ∈ l)
    (hr : r ≠ 0 → r ∈ l) : KeepsRest P l h h' := by
  intro c g hc hc0 hcg
  have hca : c = a → g = .sanityCheck := fun e => hcg.resolve_left fun hno => hno (e ▸ ha)
  have hcr : c = r → g = .sanityCheck := fun e => hcg.resolve_left fun hno => hno (e ▸ hr (e ▸ hc0))
  rw [hm.get c g hc hc0, if_neg, if_neg, if_neg]
  · rintro ⟨e, rfl⟩
    exact absurd (hcr e) (by simp)
  · rintro ⟨e, rfl⟩
    exact absurd (hca e) (by simp)
  · rintro ⟨e, rfl⟩
    exact absurd (hca e) (by simp)

theorem addr_ne_of_nodup {l l' : List Node} (hnd : ((l ++ b :: l').map Node.addr).Nodup) :
    ∀ n ∈ l ++ l', n.addr ≠ b.addr := by
  intro n hn e
  rw [List.map_append, List.map_cons] at hnd
  have hmem : b.addr ∈ l.map Node.addr ++ l'.map Node.addr := by
    rw [← List.map_append, ← e]
    exact List.mem_map_of_mem hn
  exact (List.nodup_cons.1 (List.nodup_middle.1 hnd)).1 hmem

theorem FreeChain.insert (hc : FreeChain h (xs ++ ys)) (hnd : ((xs ++ b :: ys).map Node.addr).Nodup)
    (hP : ∀ n ∈ xs ++ b :: ys, P n.addr) (hsize : h.get b.addr .size = b.size)
    (hl : LinkedIn P h h' ((xs.map Node.addr).getLastD 0) b.addr ((ys.map Node.addr).headD 0)) :
    FreeChain h' (xs ++ b :: ys) := by
  have hne := addr_ne_of_nodup hnd
  have hPr : ∀ n ∈ xs ++ ys, P n.addr := by
    intro n hn
    apply hP
    simp only [List.mem_append, List.mem_cons] at hn ⊢
    tauto
  have hc' : FreeChain h (xs ++ [] ++ ys) := by simpa using hc
  have hb := hP b (by simp)
  rw [show xs ++ b :: ys = xs ++ [b] ++ ys by simp] at hnd ⊢
  set q := (xs.map Node.addr).getLastD 0 with hq
  refine hc'.edit hq.symm rfl (fun e => by rw [hl.freeList, if_neg e]) (fun n hn => ?_) (fun n hn hnq => ?_) ?_ ?_ hnd
  · rw [hl.get _ _ (hPr n hn) n.nonnull, if_neg (hne n hn), if_neg (by simp), if_neg (by simp)]
  · rw [hl.get _ _ (hPr n hn) n.nonnull, if_neg (hne n hn), if_neg (fun e => hnq e.1), if_neg (by simp)]
  · refine List.isChain_cons_cons.2 ⟨?_, List.isChain_cons_cons.2 ⟨?_, by simp⟩⟩
    · rcases last_node xs with e | ⟨n, hn, e⟩
      · rw [hq, e, Heap.ptrs_fw_null, hl.freeList, if_pos e]
      · rw [← hq] at e
        rw [← e, Heap.ptrs_fw _ n.nonnull, hl.get _ _ (hPr n (by simp [hn])) n.nonnull, if_neg (hne n (by simp [hn])),
          if_pos ⟨e, rfl⟩]
    · rw [Heap.ptrs_fw _ b.nonnull, hl.get _ _ hb b.nonnull, if_pos rfl]
  · intro n hn
    rw [List.mem_singleton.1 hn, hl.get _ _ hb b.nonnull, if_pos rfl]
    exact hsize

theorem FreeChain.merge (hc : FreeChain h (us ++ a :: b :: ys)) (hP : ∀ n ∈ us ++ a :: b :: ys, P n.addr)
    (hca : c.addr = a.addr) (hm : Absorbs P h h' a.addr c.size ((ys.map Node.addr).headD 0)) :
    FreeChain h' (us ++ c :: ys) := by
  have hnd := (List.nodup_cons.1 hc.list.nodup).2
  have hne := addr_ne_of_nodup hnd
  have hnd' : ((us ++ [c] ++ ys).map Node.addr).Nodup := by
    refine hnd.sublist ?_
    simp only [List.map_append, List.map_cons, List.append_assoc, List.cons_append, List.nil_append, hca]
    exact List.Sublist.append_left (List.cons_sublist_cons.2 (List.sublist_cons_self ..)) _
  have hPr : ∀ n ∈ us ++ ys, P n.addr ∧ n.addr ≠ a.addr := by
    intro n hn
    refine ⟨hP n ?_, hne n ?_⟩
    · simp only [List.mem_append, List.mem_cons] at hn ⊢
      tauto
    · simp only [List.mem_append, List.mem_cons] at hn ⊢
      tauto
  have hfront : h.ptrs.fw ((us.map Node.addr).getLastD 0) = a.addr := by
    have hlist := hc.list
    rw [List.map_append, List.map_cons] at hlist
    exact hlist.at_node.1
  have hc' : FreeChain h (us ++ [a, b] ++ ys) := by simpa using hc
  rw [show us ++ c :: ys = us ++ [c] ++ ys by simp]
  set q := (us.map Node.addr).getLastD 0 with hq
  have hPc : P c.addr := hca ▸ hP a (by simp)
  refine hc'.edit hq.symm rfl (fun _ => hm.freeList) (fun n hn => ?_) (fun n hn _ => ?_) ?_ ?_ hnd'
  · obtain ⟨hn, hna⟩ := hPr n hn
    rw [hm.get _ _ hn n.nonnull (by simp), if_neg (fun e => hna e.1), if_neg (by simp)]
  · obtain ⟨hn, hna⟩ := hPr n hn
    rw [hm.get _ _ hn n.nonnull (by simp), if_neg (by simp), if_neg (fun e => hna e.1)]
  · refine List.isChain_cons_cons.2 ⟨?_, List.isChain_cons_cons.2 ⟨?_, by simp⟩⟩
    · rcases last_node us with e | ⟨n, hn, e⟩
      · rw [hq, e, Heap.ptrs_fw_null] at hfront ⊢
        rw [hm.freeList, hfront, hca]
      · obtain ⟨hnP, hna⟩ := hPr n (by simp [hn])
        rw [hq, ← e, Heap.ptrs_fw _ n.nonnull] at hfront ⊢
        rw [hm.get _ _ hnP n.nonnull (by simp), if_neg (by simp), if_neg (fun e => hna e.1), hfront, hca]
    · rw [Heap.ptrs_fw _ c.nonnull, hm.get _ _ hPc c.nonnull (by simp), if_neg (by simp), if_pos ⟨hca, rfl⟩]
  · intro n hn
    rw [List.mem_singleton.1 hn, hm.get _ _ hPc c.nonnull (by simp), if_pos ⟨hca, rfl⟩]

/-- The merge with the node above, as far as the chain sees it. -/
theorem coalesce_upper_absorbs (hP : Headers P) {hdr n r : Word} (hh : P hdr) (hn : P n) (hr : r ≠ 0 → P r)
    (hs : r ≠ 0 → h.get r .next ≠ 0 → P (h.get r .next)) (hhn : n ≠ hdr) (hhr : r ≠ hdr) (hnext : h.get hdr .next = n)
    (hn0 : n ≠ 0) (hnn : h.get n .next = r) (hm : dataStart hdr + h.get hdr .size = n) :
    Absorbs P h (coalesce_upper h hdr) hdr (h.get hdr .size + (h.get n .size + SIZEOF_MEMHEADER)) r ∧
      ∀ c g, P c → c ≠ 0 → c ≠ hdr → (r ≠ 0 → c = h.get r .next → g ≠ .prev) →
        (coalesce_upper h hdr).get c g = h.get c g := by
  set size := h.get hdr .size + (h.get n .size + SIZEOF_MEMHEADER) with hsize
  set h2 := (h.set hdr .size size).set hdr .next r with hh2
  have e1 : (h.set hdr .size size).get n .next = r := by
    rw [Heap.get_set_of hP _ _ _ _ hh hn, if_neg (fun e => hhn e.1), hnn]
  have e2 : h2.get hdr .next = r := by
    rw [hh2, Heap.get_set_of hP _ _ _ _ hh hh, if_pos ⟨rfl, rfl⟩]
  have hget {c : Word} {g : HdrField} (hc : P c) :
      h2.get c g = if c = hdr ∧ g = .next then r else if c = hdr ∧ g = .size then size else h.get c g := by
    rw [hh2, Heap.get_set_of hP _ _ _ _ hh hc, Heap.get_set_of hP _ _ _ _ hh hc]
  have hco : coalesce_upper h hdr =
      if r ≠ 0 ∧ h2.get r .next ≠ 0 then h2.set (h2.get r .next) .prev hdr else h2 := by
    unfold coalesce_upper
    simp only [hnext, if_pos (And.intro hn0 hm), ← hsize, e1, ← hh2, e2]
  have hfix : ∀ c g, P c → c ≠ 0 → (r ≠ 0 → c = h.get r .next → g ≠ .prev) →
      (coalesce_upper h hdr).get c g = h2.get c g := by
    intro c g hc hc0 hg
    rw [hco]
    split
    · next hfix =>
      have hrr : h2.get r .next = h.get r .next := by
        rw [hget (hr hfix.1), if_neg (fun e => hhr e.1), if_neg (fun e => hhr e.1)]
      rw [hrr] at hfix ⊢
      rw [Heap.get_set_of hP _ _ _ _ (hs hfix.1 hfix.2) hc, if_neg]
      rintro ⟨e, e'⟩
      exact hg hfix.1 e e'
    · rfl
  refine ⟨⟨?_, fun c g hc hc0 hg => ?_⟩, fun c g hc hc0 hch hg => ?_⟩
  · rw [hco]
    split <;> rfl
  · rw [hfix c g hc hc0 fun _ _ => hg, hget hc]
    by_cases e : c = hdr <;> cases g <;> simp [e]
  · rw [hfix c g hc hc0 hg, hget hc, if_neg (fun e => hch e.1), if_neg (fun e => hch e.1)]

/-- A gap to the last node is a gap to all. -/
theorem lt_of_last {l : List Node} {x : Nat} (hs : Spaced ((l ++ [a]).map Node.span)) (ha : a.span.hi < x) :
    ∀ n ∈ l ++ [a], n.span.hi < x := by
  intro n hn
  rw [List.map_append] at hs
  rcases List.mem_append.1 hn with hn | hn
  · have hlt := (List.pairwise_append.1 hs).2.2 _ (List.mem_map_of_mem hn) a.span (by simp)
    have := a.span.lt
    omega
  · rw [List.mem_singleton.1 hn]
    exact ha

/-- A gap to the first node is a gap to all. -/
theorem lt_of_head {l : List Node} {x : Nat} (hs : Spaced ((a :: l).map Node.span)) (ha : x < a.span.lo) :
    ∀ n ∈ a :: l, x < n.span.lo := by
  intro n hn
  rcases List.mem_cons.1 hn with rfl | hn
  · exact ha
  · have hlt := (List.pairwise_cons.1 hs).1 _ (List.mem_map_of_mem hn)
    have := a.span.lt
    omega

/-- A merge on one side: `l'` and `c` stand for `l` and `b`. -/
structure Replaces (l : List Node) (b : Node) (l' : List Node) (c : Node) : Prop where
  spaced : Spaced (l'.map Node.span)
  covers : ∀ x, Covers (l'.map Node.span) x ∨ (c.span.lo ≤ x ∧ x < c.span.hi) ↔
    Covers (l.map Node.span) x ∨ (b.span.lo ≤ x ∧ x < b.span.hi)
  sub : ∀ n ∈ c :: l', n.span.hi ≤ 2 ^ 32 ∧ ∃ m ∈ b :: l, m.addr = n.addr

namespace Replaces
variable {zs : List Node} {d : Node}

theorem covers_both (hl : Replaces xs b us c) (hu : Replaces ys c zs d) (x : Nat) :
    Covers ((us ++ d :: zs).map Node.span) x ↔ Covers ((xs ++ b :: ys).map Node.span) x := by
  have h1 := hl.covers x
  have h2 := hu.covers x
  simp only [List.map_append, List.map_cons, covers_append, covers_cons]
  rw [or_comm (b := Covers (zs.map Node.span) x), h2, or_left_comm, h1, or_left_comm]
  exact or_congr_right or_comm

theorem sub_both (hl : Replaces xs b us c) (hu : Replaces ys c zs d) {n : Node} (hn : n ∈ us ++ d :: zs) :
    n.span.hi ≤ 2 ^ 32 ∧ ∃ m ∈ xs ++ b :: ys, m.addr = n.addr := by
  rcases List.mem_append.1 hn with hn | hn
  · obtain ⟨hfit, m, hm, e⟩ := hl.sub n (by simp [hn])
    exact ⟨hfit, m, by simpa [or_left_comm, or_assoc] using Or.inl hm, e⟩
  · obtain ⟨hfit, m, hm, e⟩ := hu.sub n hn
    refine ⟨hfit, ?_⟩
    rcases List.mem_cons.1 hm with rfl | hm
    · obtain ⟨-, k, hk, e'⟩ := hl.sub m (by simp)
      exact ⟨k, by simpa [or_left_comm, or_assoc] using Or.inl hk, e'.trans e⟩
    · exact ⟨m, by simp [hm], e⟩

end Replaces

theorem chain_lower (hP : Headers P) (hc : FreeChain h (xs ++ b :: ys)) (hPn : ∀ n ∈ xs ++ b :: ys, P n.addr)
    (hfits : ∀ n ∈ b :: xs, n.span.hi ≤ 2 ^ 32) (hprev : h.get b.addr .prev = (xs.map Node.addr).getLastD 0)
    (hxs : Spaced (xs.map Node.span)) (hle : ∀ x ∈ xs, x.span.hi ≤ b.span.lo) :
    ∃ us c h', coalesce_lower h b.addr = (h', c.addr) ∧ FreeChain h' (us ++ c :: ys) ∧
      KeepsRest P ((xs ++ b :: ys).map Node.addr) h h' ∧ Replaces xs b us c ∧ c.span.hi = b.span.hi ∧
      ∀ u ∈ us, u.span.hi < c.span.lo := by
  by_cases hm : h.get b.addr .prev ≠ 0 ∧ dataStart (h.get b.addr .prev) + h.get (h.get b.addr .prev) .size = b.addr
  swap
  · refine ⟨xs, b, h, coalesce_lower_skip hm, hc, fun _ _ _ _ _ => rfl,
      ⟨hxs, fun _ => Iff.rfl, fun n hn => ⟨hfits n hn, n, hn, rfl⟩⟩, rfl, ?_⟩
    -- the last node below does not touch the block, so none does
    rcases List.eq_nil_or_concat xs with rfl | ⟨us, a, rfl⟩
    · simp
    rw [List.concat_eq_append] at *
    rw [List.map_append, List.map_singleton, List.getLastD_concat] at hprev
    rw [hprev, hc.size a (by simp), Node.adjacent_iff (hfits a (by simp))] at hm
    have hne : a.span.hi ≠ b.span.lo := fun e => hm ⟨a.nonnull, e⟩
    have := hle a (by simp)
    exact lt_of_last hxs (by omega)
  obtain ⟨us, a, rfl⟩ : ∃ us a, xs = us ++ [a] := by
    rcases List.eq_nil_or_concat xs with rfl | ⟨us, a, rfl⟩
    · exact absurd hprev hm.1
    · exact ⟨us, a, by simp⟩
  rw [List.map_append, List.map_singleton, List.getLastD_concat] at hprev
  have hsa := hc.size a (by simp)
  have hsb := hc.size b (by simp)
  rw [hprev, hsa] at hm
  have hadj := (Node.adjacent_iff (hfits a (by simp))).1 hm.2
  obtain ⟨c, hca, hcs, hcspan⟩ := Node.exists_join (hfits b (by simp)) hadj
  have hnd := (List.nodup_cons.1 hc.list.nodup).2
  have hne := addr_ne_of_nodup hnd
  have hab : b.addr ≠ a.addr := (hne a (by simp)).symm
  have hPr : (ys.map Node.addr).headD 0 ≠ 0 → P ((ys.map Node.addr).headD 0) := by
    intro e
    rcases head_node ys with e' | ⟨n, hn, e'⟩
    · exact absurd e' e
    · exact e' ▸ hPn n (by simp [hn])
  have hbr : b.addr ≠ (ys.map Node.addr).headD 0 := by
    rcases head_node ys with e | ⟨n, hn, e⟩
    · rw [e]
      exact b.nonnull
    · exact e ▸ (hne n (by simp [hn])).symm
  obtain ⟨h', hco, hme⟩ := coalesce_lower_merged hP (hPn b (by simp)) b.nonnull (hPn a (by simp)) hPr hab hbr hprev
    hc.next_eq hm.1 (by rw [hsa, hm.2])
  rw [hsa, hsb, ← hcs] at hme
  have hc2 : FreeChain h (us ++ a :: b :: ys) := by simpa using hc
  rw [List.map_append] at hxs
  obtain ⟨hus, -, hua⟩ := List.pairwise_append.1 hxs
  refine ⟨us, c, h', by rw [hco, hca], hc2.merge (by simpa using hPn) hca hme.absorbs, ?_,
    ⟨hus, fun x => ?_, fun n hn => ?_⟩, ?_, fun u hu => ?_⟩
  · refine hme.keepsRest (by simp) fun e => ?_
    rcases head_node ys with e' | ⟨n, hn, e'⟩
    · exact absurd e' e
    · exact e' ▸ List.mem_map_of_mem (by simp [hn])
  · rw [hcspan, covers_join, List.map_append, covers_append, List.map_singleton, covers_cons,
      or_iff_left (not_covers_nil x), or_assoc]
  · rcases List.mem_cons.1 hn with rfl | hn
    · refine ⟨?_, a, by simp, hca.symm⟩
      rw [hcspan]
      exact hfits b (by simp)
    · exact ⟨hfits n (by simp [hn]), n, by simp [hn], rfl⟩
  · rw [hcspan]
    rfl
  · rw [hcspan]
    exact hua _ (List.mem_map_of_mem hu) a.span (by simp)

theorem chain_upper (hP : Headers P) (hc : FreeChain h (us ++ c :: ys)) (hPn : ∀ n ∈ us ++ c :: ys, P n.addr)
    (hfits : ∀ n ∈ c :: ys, n.span.hi ≤ 2 ^ 32) (hys : Spaced (ys.map Node.span))
    (hle : ∀ y ∈ ys, c.span.hi ≤ y.span.lo) :
    ∃ d zs, FreeChain (coalesce_upper h c.addr) (us ++ d :: zs) ∧
      KeepsRest P ((us ++ c :: ys).map Node.addr) h (coalesce_upper h c.addr) ∧ Replaces ys c zs d ∧
      d.span.lo = c.span.lo ∧ ∀ z ∈ zs, d.span.hi < z.span.lo := by
  have hnext := hc.next_eq
  have hsc := hc.size c (by simp)
  by_cases hm : h.get c.addr .next ≠ 0 ∧ dataStart c.addr + h.get c.addr .size = h.get c.addr .next
  swap
  · rw [coalesce_upper_skip hm]
    refine ⟨c, ys, hc, fun _ _ _ _ _ => rfl, ⟨hys, fun _ => Iff.rfl, fun n hn => ⟨hfits n hn, n, hn, rfl⟩⟩, rfl, ?_⟩
    -- the first node above does not touch the block, so none does
    cases ys with
    | nil => simp
    | cons n ys =>
      rw [List.map_cons, List.headD_cons] at hnext
      rw [hnext, hsc, Node.adjacent_iff (hfits c (by simp))] at hm
      have hne : c.span.hi ≠ n.span.lo := fun e => hm ⟨n.nonnull, e⟩
      have := hle n (by simp)
      exact lt_of_head hys (by omega)
  obtain ⟨n, zs, rfl⟩ : ∃ n zs, ys = n :: zs := by
    cases ys with
    | nil => exact absurd hnext hm.1
    | cons n zs => exact ⟨n, zs, rfl⟩
  rw [List.map_cons, List.headD_cons] at hnext
  have hsn := hc.size n (by simp)
  rw [hnext, hsc] at hm
  have hadj := (Node.adjacent_iff (hfits c (by simp))).1 hm.2
  obtain ⟨d, hdc, hds, hdspan⟩ := Node.exists_join (hfits n (by simp)) hadj
  have hne := addr_ne_of_nodup (List.nodup_cons.1 hc.list.nodup).2
  have hc2 : FreeChain h ((us ++ [c]) ++ n :: zs) := by simpa using hc
  have hnn : h.get n.addr .next = (zs.map Node.addr).headD 0 := hc2.next_eq
  -- the two nodes behind the absorbed one, where they exist
  have hr : ∀ {a}, a = (zs.map Node.addr).headD 0 → a ≠ 0 → ∃ m ∈ zs, m.addr = a := by
    rintro a rfl e
    exact (head_node zs).resolve_left e
  have hs : (zs.map Node.addr).headD 0 ≠ 0 → h.get ((zs.map Node.addr).headD 0) .next ≠ 0 →
      ∃ m ∈ zs, m.addr = h.get ((zs.map Node.addr).headD 0) .next := by
    intro e e'
    cases zs with
    | nil => exact absurd rfl e
    | cons m zs =>
      have hc3 : FreeChain h ((us ++ [c, n]) ++ m :: zs) := by simpa using hc
      rw [List.map_cons, List.headD_cons, hc3.next_eq] at e' ⊢
      obtain ⟨k, hk, hka⟩ := (head_node zs).resolve_left e'
      exact ⟨k, List.mem_cons_of_mem _ hk, hka⟩
  obtain ⟨hab, hkeep⟩ := coalesce_upper_absorbs (r := (zs.map Node.addr).headD 0) hP (hPn c (by simp)) (hPn n (by simp))
    (fun e => by
      obtain ⟨m, hm, e'⟩ := hr rfl e
      exact e' ▸ hPn m (by simp [hm]))
    (fun e e' => by
      obtain ⟨m, hm, e'⟩ := hs e e'
      exact e' ▸ hPn m (by simp [hm]))
    (hne n (by simp))
    (fun e => by
      obtain ⟨m, hm, e'⟩ := hr e.symm c.nonnull
      exact hne m (by simp [hm]) e')
    hnext hm.1 hnn (by rw [hsc, hm.2])
  rw [hsc, hsn, ← hds] at hab
  obtain ⟨hn, hzs⟩ := List.pairwise_cons.1 hys
  refine ⟨d, zs, hc.merge hPn hdc hab, fun a g ha ha0 hag => ?_, ⟨hzs, fun x => ?_, fun m hm => ?_⟩, ?_, fun z hz => ?_⟩
  · by_cases e : a = c.addr
    · obtain rfl : g = .sanityCheck := hag.resolve_left fun hno => hno (by simp [e])
      rw [hab.get a _ ha ha0 (by simp), if_neg (by simp), if_neg (by simp)]
    · refine hkeep a g ha ha0 e fun hr0 e' hg => ?_
      obtain ⟨m, hm, e2⟩ := hs hr0 (e' ▸ ha0)
      refine (hag.resolve_right (by simp [hg])) ?_
      rw [e', ← e2]
      exact List.mem_map_of_mem (by simp [hm])
  · rw [hdspan, covers_join, List.map_cons, covers_cons]
    exact or_left_comm.trans (or_comm.trans (or_congr_left or_comm))
  · rcases List.mem_cons.1 hm with rfl | hm
    · refine ⟨?_, c, by simp, hdc.symm⟩
      rw [hdspan]
      exact hfits n (by simp)
    · exact ⟨hfits m (by simp [hm]), m, by simp [hm], rfl⟩
  · rw [hdspan]
    rfl
  · rw [hdspan]
    exact hn _ (List.mem_map_of_mem hz)

/-- Both merges, one after the other. -/
theorem chain_coalesce (hP : Headers P) (hc : FreeChain h (xs ++ b :: ys)) (hPn : ∀ n ∈ xs ++ b :: ys, P n.addr)
    (hfits : ∀ n ∈ xs ++ b :: ys, n.span.hi ≤ 2 ^ 32) (hprev : h.get b.addr .prev = (xs.map Node.addr).getLastD 0)
    (hxs : Spaced (xs.map Node.span)) (hys : Spaced (ys.map Node.span)) (hlo : ∀ x ∈ xs, x.span.hi ≤ b.span.lo)
    (hhi : ∀ y ∈ ys, b.span.hi ≤ y.span.lo) :
    ∃ h2 hdr free', coalesce_lower h b.addr = (h2, hdr) ∧ Forward (coalesce_upper h2 hdr) free' ∧
      KeepsRest P ((xs ++ b :: ys).map Node.addr) h (coalesce_upper h2 hdr) ∧
      (∀ x, Covers (free'.map Node.span) x ↔ Covers ((xs ++ b :: ys).map Node.span) x) ∧
      ∀ n ∈ free', ∃ m ∈ xs ++ b :: ys, m.addr = n.addr := by
  obtain ⟨us, c, h2, hlow, hc2, hk2, hr2, hchi, hus⟩ := chain_lower hP hc hPn
    (fun n hn => hfits n (by simpa [or_left_comm, or_assoc] using Or.inl hn)) hprev hxs hlo
  have hr0 : Replaces ys c ys c := by
    refine ⟨hys, fun _ => Iff.rfl, fun n hn => ⟨?_, n, hn, rfl⟩⟩
    rcases List.mem_cons.1 hn with rfl | hn
    · exact (hr2.sub n (by simp)).1
    · exact hfits n (by simp [hn])
  have hPn2 : ∀ n ∈ us ++ c :: ys, P n.addr := by
    intro n hn
    obtain ⟨-, m, hm, e⟩ := hr2.sub_both hr0 hn
    exact e ▸ hPn m hm
  obtain ⟨d, zs, hc3, hk3, hr3, hdlo, hzs⟩ := chain_upper hP hc2 hPn2 (fun n hn => (hr0.sub n hn).1) hys (hchi ▸ hhi)
  refine ⟨h2, c.addr, us ++ d :: zs, hlow, ⟨hc3, ?_, fun n hn => (hr2.sub_both hr3 hn).1⟩, fun a g ha ha0 hag => ?_,
    hr2.covers_both hr3, fun n hn => (hr2.sub_both hr3 hn).2⟩
  · rw [List.map_append, List.map_cons]
    refine Spaced.around hr2.spaced hr3.spaced (fun x hx => ?_) fun y hy => ?_
    · obtain ⟨u, hu, rfl⟩ := List.mem_map.1 hx
      exact hdlo ▸ hus u hu
    · obtain ⟨z, hz, rfl⟩ := List.mem_map.1 hy
      exact hzs z hz
  · rw [hk3 a g ha ha0, hk2 a g ha ha0 hag]
    refine hag.imp_left fun hno hm => hno ?_
    obtain ⟨n, hn, rfl⟩ := List.mem_map.1 hm
    obtain ⟨-, m, hm, e⟩ := hr2.sub_both hr0 hn
    exact e ▸ List.mem_map_of_mem hm

end

/-! ## The call -/

/-- What `kfree` of the block `b` does: its bytes are free, its mark is gone, and
of the headers off the list no other one changes. -/
structure Freed (P : Word → Prop) (h h' : Heap) (b : Node) (free free' : List Node) : Prop extends Forward h' free' where
  covers : ∀ x, Covers (free'.map Node.span) x ↔
    Covers (free.map Node.span) x ∨ (b.span.lo ≤ x ∧ x < b.span.hi)
  sub : ∀ n ∈ free', ∃ m ∈ b :: free, m.addr = n.addr
  unmarked : h'.get b.addr .sanityCheck = 0
  rest : ∀ a g, P a → a ≠ 0 → a ≠ b.addr → a ∉ free.map Node.addr ∨ g = .sanityCheck → h'.get a g = h.get a g

/-- A bound on the nodes and the block is one on the new nodes. -/
theorem Freed.below {P : Word → Prop} {h h' : Heap} {b : Node} {free free' : List Node} (hf : Freed P h h' b free free')
    {top : Nat} (hfree : ∀ n ∈ free, n.span.hi ≤ top) (hb : b.span.hi ≤ top) : ∀ n ∈ free', n.span.hi ≤ top := by
  intro n hn
  have hlt := n.span.lt
  have hlast : Covers (free'.map Node.span) (n.span.hi - 1) := ⟨n.span, List.mem_map_of_mem hn, by omega, by omega⟩
  rcases (hf.covers _).1 hlast with ⟨s, hs, -, hhi⟩ | ⟨-, hhi⟩
  · obtain ⟨m, hm, rfl⟩ := List.mem_map.1 hs
    have := hfree m hm
    omega
  · omega

section
variable {P : Word → Prop} {h : Heap} {free : List Node} {b : Node}

/-- The nodes below a block and the nodes above it. -/
theorem split_around {xs ys : List Node} (hs : Spaced ((xs ++ ys).map Node.span)) (hap : ∀ n ∈ xs ++ ys, Apart b.span n.span)
    (hxs : ∀ x ∈ xs, x.addr < b.addr) (hys : ∀ y ∈ ys.head?, b.addr < y.addr) :
    (∀ x ∈ xs, x.span.hi ≤ b.span.lo) ∧ ∀ y ∈ ys, b.span.hi ≤ y.span.lo := by
  refine ⟨fun x hx => ?_, fun y hy => ?_⟩
  · have hlt : x.addr.toNat < b.addr.toNat := hxs x hx
    have hx' := hap x (by simp [hx])
    simp only [Apart, Node.span] at hx' ⊢
    omega
  · cases ys with
    | nil => cases hy
    | cons z ys =>
      have hlt : b.addr.toNat < z.addr.toNat := hys z rfl
      have hz := hap z (by simp)
      have hlo : z.span.lo ≤ y.span.lo := by
        rw [List.map_append, List.map_cons] at hs
        rcases List.mem_cons.1 hy with rfl | hy
        · exact Nat.le_refl _
        · have hzy := (List.pairwise_cons.1 (List.pairwise_append.1 hs).2.1).1 _ (List.mem_map_of_mem hy)
          have := z.span.lt
          omega
      have hzb : b.span.hi ≤ z.span.lo := by
        simp only [Apart, Node.span] at hz ⊢
        omega
      omega

theorem kfree_forward (hP : Headers P) (hf : Forward h free) (hPn : ∀ n ∈ b :: free, P n.addr)
    (hsize : h.get b.addr .size = b.size) (hmark : h.get b.addr .sanityCheck = dataStart b.addr)
    (hb : b.span.hi ≤ 2 ^ 32) (hap : ∀ n ∈ free, Apart b.span n.span) :
    ∃ h' free', kfree h (dataStart b.addr) = some h' ∧ Freed P h h' b free free' := by
  have hne : b.addr ∉ free.map Node.addr := by
    intro hm
    obtain ⟨n, hn, e⟩ := List.mem_map.1 hm
    have hap' := hap n hn
    simp only [Apart, Node.span, e] at hap'
    omega
  have hal : ∀ a ∈ free.map Node.addr, P a := by
    intro a ha
    obtain ⟨n, hn, rfl⟩ := List.mem_map.1 ha
    exact hPn n (by simp [hn])
  have hnd := (List.nodup_cons.1 hf.list.nodup).2
  obtain ⟨as, bs, h1, e, has, hbs, hins, hin⟩ := kfree_insert_linked hP (hPn b (by simp)) b.nonnull hal hne
    hf.null_not_mem hnd hf.freeList_eq hf.next_chain
  obtain ⟨xs, ys, rfl, rfl, rfl⟩ := List.map_eq_append_iff.1 e
  have hmem : ∀ {n}, n ∈ xs ++ b :: ys ↔ n ∈ b :: (xs ++ ys) := List.perm_middle.mem_iff
  obtain ⟨hlo, hhi⟩ := split_around hf.spaced hap (fun x hx => has _ (List.mem_map_of_mem hx)) fun y hy =>
    hbs _ (by rw [List.head?_map, Option.mem_def.1 hy, Option.map_some, Option.mem_def])
  have hnd1 : ((xs ++ b :: ys).map Node.addr).Nodup := by
    rw [List.map_append] at hne hnd
    rw [List.map_append, List.map_cons]
    exact List.nodup_middle.2 (List.nodup_cons.2 ⟨hne, hnd⟩)
  have hPn1 : ∀ n ∈ xs ++ b :: ys, P n.addr := fun n hn => hPn n (hmem.1 hn)
  have hspaced := hf.spaced
  rw [List.map_append] at hspaced
  obtain ⟨hxs, hys, -⟩ := List.pairwise_append.1 hspaced
  have hb1 {g : HdrField} := hin.get b.addr g (hPn b (by simp)) b.nonnull
  obtain ⟨h2, hdr, free', hlow, hf', hkeep, hcov, hsub⟩ := chain_coalesce hP
    (hf.toFreeChain.insert hnd1 hPn1 hsize hin) hPn1
    (fun n hn => by
      rcases List.mem_cons.1 (hmem.1 hn) with rfl | hn
      · exact hb
      · exact hf.fits n hn)
    (by rw [hb1, if_pos rfl]) hxs hys hlo hhi
  refine ⟨_, free', ?_, ⟨hf', fun x => ?_, fun n hn => ?_, ?_, fun a g ha ha0 hab hag => ?_⟩⟩
  · have hhdr : dataStart b.addr - SIZEOF_MEMHEADER = b.addr := by
      simp only [dataStart, SIZEOF_MEMHEADER]
      bv_omega
    unfold kfree
    rw [hhdr, if_pos hmark]
    change (kfree_insert (h.unmark b.addr) b.addr).bind _ = _
    rw [hins, Option.bind_some, hlow]
  · rw [hcov, List.map_append, List.map_cons, List.map_append, covers_append, covers_append, covers_cons, or_assoc,
      or_comm (a := Covers (ys.map Node.span) x)]
  · obtain ⟨m, hm, e⟩ := hsub n hn
    exact ⟨m, hmem.1 hm, e⟩
  · rw [hkeep _ _ (hPn b (by simp)) b.nonnull (.inr rfl), hb1, if_pos rfl]
  · rw [hkeep a g ha ha0 (hag.imp_left fun hno hm => ?_)]
    · rw [List.map_append] at hag
      refine hin.rest (fun e => ?_) (fun e => ?_) a g ha ha0 hab hag
      · exact List.mem_append_left _ ((getLastD_mem 0 _).resolve_left e)
      · exact List.mem_append_right _ ((headD_mem 0 _).resolve_left e)
    · obtain ⟨n, hn, e⟩ := List.mem_map.1 hm
      rcases List.mem_cons.1 (hmem.1 hn) with rfl | hn
      · exact hab e.symm
      · exact hno (List.mem_map.2 ⟨n, hn, e⟩)

end

/-- `kfree` of a live block keeps the chain in order and coalesced, and adds the
bytes of the block to it; a pointer without its mark is left alone. -/
theorem kfree_coalesces (h : Heap) :
    (∀ (free : List Node) (b : Node), Forward h free → h.get b.addr .size = b.size →
      h.get b.addr .sanityCheck = dataStart b.addr → b.span.hi ≤ 2 ^ 32 → (∀ n ∈ free, Apart b.span n.span) →
      ∃ h' free', kfree h (dataStart b.addr) = some h' ∧ Forward h' free' ∧
        ∀ x, Covers (free'.map Node.span) x ↔
          Covers (free.map Node.span) x ∨ (b.span.lo ≤ x ∧ x < b.span.hi)) ∧
    ∀ ptr, h.get (ptr - SIZEOF_MEMHEADER) .sanityCheck ≠ ptr → kfree h ptr = some h := by
  refine ⟨fun free b hf hsize hmark hb hap => ?_, fun ptr hno => ?_⟩
  · -- the headers are those of the block and the nodes, wherever they lie
    have hfits : ∀ n ∈ b :: free, n.span.hi ≤ 2 ^ 32 := List.forall_mem_cons.2 ⟨hb, hf.fits⟩
    have hdis : ((b :: free).map Node.span).Pairwise Apart := by
      refine List.pairwise_cons.2 ⟨fun s hs => ?_, hf.spaced.apart⟩
      obtain ⟨n, hn, rfl⟩ := List.mem_map.1 hs
      exact hap n hn
    obtain ⟨h', free', hk, hfr⟩ :=
      kfree_forward (headers_of_apart hfits hdis) hf (fun n hn => ⟨n, hn, rfl⟩) hsize hmark hb hap
    exact ⟨h', free', hk, hfr.toForward, hfr.covers⟩
  · have hptr : dataStart (ptr - SIZEOF_MEMHEADER) = ptr := by
      simp only [dataStart, SIZEOF_MEMHEADER]
      bv_omega
    unfold kfree
    exact if_neg (hptr.symm ▸ hno)

theorem kfree_coalesces_first_block :
    ∃ h' free', kfree (kmalloc_take (kmeminit 0x20000 { mem := fun _ => 0, freeList := 0 }) 16 0x20000) 0x20010 = some h' ∧
      Forward h' free' ∧
      ∀ x, Covers (free'.map Node.span) x ↔
        (0x20020 ≤ x ∧ x < 0xA0000 ∨ 0x196000 ≤ x ∧ x < 0x400000) ∨ (0x20000 ≤ x ∧ x < 0x20020) := by
  let b : Node := ⟨0x20000, 16, by decide⟩
  let n : Node := ⟨0x20020, 0x7FFD0, by decide⟩
  let m : Node := ⟨HOLEEND, FREEMEM_END - HOLEEND - SIZEOF_MEMHEADER, by decide⟩
  have hf : Forward (kmalloc_take (kmeminit 0x20000 { mem := fun _ => 0, freeList := 0 }) 16 0x20000) [n, m] :=
    ⟨⟨⟨by decide +kernel, by decide +kernel⟩, by decide +kernel⟩, by decide +kernel, by decide +kernel⟩
  obtain ⟨h', free', hk, hf', hcov⟩ := (kfree_coalesces _).1 [n, m] b hf (by decide +kernel) (by decide +kernel)
    (by decide +kernel) (by decide +kernel)
  have hspans : n.span.lo = 0x20020 ∧ n.span.hi = 0xA0000 ∧ m.span.lo = 0x196000 ∧ m.span.hi = 0x400000 ∧
      b.span.lo = 0x20000 ∧ b.span.hi = 0x20020 := by decide +kernel
  obtain ⟨h1, h2, h3, h4, h5, h6⟩ := hspans
  refine ⟨h', free', hk, hf', fun x => ?_⟩
  rw [hcov x, List.map_cons, List.map_cons, List.map_nil, covers_cons, covers_cons, or_iff_left (not_covers_nil x),
    h1, h2, h3, h4, h5, h6]

end Xeros
