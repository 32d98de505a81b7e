import Xeros.Heap.FirstFit
import Xeros.Heap.Forward
/-!
# `kmalloc` and `kfree` at once

Giving a block back at once restores the free list, except when 16 bytes of the
node are left over: they are too few for a node, and the recorded size leaves
them out (`round_trip_iff`).
-/

namespace Xeros

open DLinks Span

/-! ## Lists of nodes -/

def Block.node (b : Block) : Node := ⟨b.addr, b.size, b.nonnull⟩

theorem map_node_addr (l : List Block) : (l.map Block.node).map Node.addr = l.map Block.addr := by
  rw [List.map_map]
  rfl

theorem map_node_span (l : List Block) : (l.map Block.node).map Node.span = l.map Block.span := by
  rw [List.map_map]
  rfl

theorem WellFormed.forward {h : Heap} {free : List Block} (hw : WellFormed h free) :
    Forward h (free.map Block.node) := by
  refine ⟨⟨?_, fun n hn => ?_⟩, ?_, fun n hn => ?_⟩
  · rw [map_node_addr]
    exact hw.list.forward
  · obtain ⟨b, hb, rfl⟩ := List.mem_map.1 hn
    exact hw.size b hb
  · rw [map_node_span]
    exact hw.spaced
  · obtain ⟨b, hb, rfl⟩ := List.mem_map.1 hn
    exact Nat.le_trans (hw.below b hb) (by decide)

theorem Node.span_injective : Function.Injective Node.span := by
  intro a b e
  simp only [Node.span, Span.mk.injEq] at e
  obtain ⟨hlo, hhi⟩ := e
  cases a
  cases b
  simp only [Node.mk.injEq]
  constructor <;> bv_omega

/-- The heap determines its list of nodes. -/
theorem FreeChain.unique {h : Heap} {l l' : List Node} (hl : FreeChain h l) (hl' : FreeChain h l') : l = l' := by
  have hinj : ∀ a ∈ l ++ l', ∀ b ∈ l ++ l', a.addr = b.addr → a = b := by
    have hsize : ∀ a ∈ l ++ l', h.get a.addr .size = a.size := fun a ha =>
      (List.mem_append.1 ha).elim (hl.size a) (hl'.size a)
    intro a ha b hb e
    have hs : a.size = b.size := by rw [← hsize a ha, ← hsize b hb, e]
    cases a
    cases b
    simp only at e hs
    subst e hs
    rfl
  have hmap := hl.list.unique hl'.list
  refine List.ext_getElem (by simpa using congrArg List.length hmap) fun i hi hi' => ?_
  refine hinj _ (List.mem_append_left _ (List.getElem_mem hi)) _ (List.mem_append_right _ (List.getElem_mem hi')) ?_
  have hmi := List.getElem_of_eq hmap (i := i) (by simpa using hi)
  simpa using hmi

/-! ## The round trip -/

/-- A node meets no other one. -/
theorem WellFormed.others_apart {h : Heap} {xs ys : List Block} {n : Block} (hw : WellFormed h (xs ++ n :: ys)) :
    ∀ m ∈ xs ++ ys, Apart n.span m.span := by
  have hs := hw.spaced
  rw [List.map_append, List.map_cons] at hs
  intro m hm
  exact hs.others_apart _ (by simpa only [List.map_append] using List.mem_map_of_mem hm)

section
variable {h h1 : Heap} {free xs ys rest : List Block} {n : Block} {size : Word}

namespace Takes

theorem amount (ht : Takes h free size xs n ys rest h1) : (align16 size).toNat = roundUp size.toNat := by
  apply align16_toNat
  by_contra hs
  have hk := ht.result
  unfold kmalloc at hk
  rw [if_pos (Int.not_lt.1 hs), Option.some.injEq, Prod.mk.injEq] at hk
  exact ht.nonnull hk.1.symm

/-- The block handed out. -/
def block (_ : Takes h free size xs n ys rest h1) : Node := ⟨n.addr, align16 size, n.nonnull⟩

theorem block_within (ht : Takes h free size xs n ys rest h1) : Within ht.block.span n.span := by
  have hfits := ht.fits
  have ha := ht.amount
  simp only [Within, block, Node.span, Block.span]
  omega

/-- What is left of the node begins where the block ends. -/
theorem rest_lo (ht : Takes h free size xs n ys rest h1) (hn : n.span.hi ≤ FREEMEM_END.toNat) :
    rest = [] ∧ n.size.toNat ≤ roundUp size.toNat + 16 ∨
      ∃ m, rest = [m] ∧ roundUp size.toNat + 16 < n.size.toNat ∧ ht.block.span.hi = m.span.lo ∧ m.span.hi = n.span.hi := by
  have ha := ht.amount
  have hend : FREEMEM_END.toNat = 0x400000 := rfl
  rw [hend] at hn
  cases ht.remainder with
  | whole hle => exact .inl ⟨rfl, ha ▸ hle⟩
  | split m hroom hm hms =>
    refine .inr ⟨m, rfl, ha ▸ hroom, ?_, ?_⟩
    · simp only [Block.span] at hn
      simp only [block, Node.span, Block.span, hm, dataStart, SIZEOF_MEMHEADER]
      bv_omega
    · simp only [Block.span] at hn
      simp only [Block.span, hm, hms, dataStart, SIZEOF_MEMHEADER]
      bv_omega

/-- The block meets no other node. -/
theorem block_apart (hw : WellFormed h free) (ht : Takes h free size xs n ys rest h1) :
    ∀ m ∈ (xs ++ rest ++ ys).map Block.node, Apart ht.block.span m.span := by
  obtain rfl := ht.free_eq
  have hother : ∀ m ∈ xs ++ ys, Apart ht.block.span m.span := fun m hm => (hw.others_apart m hm).within ht.block_within
  intro m' hm'
  obtain ⟨m, hm, rfl⟩ := List.mem_map.1 hm'
  by_cases hr : m ∈ rest
  · rcases ht.rest_lo (hw.below n (by simp)) with ⟨e, -⟩ | ⟨k, e, -, hlo, -⟩
    · rw [e] at hr
      cases hr
    · rw [e, List.mem_singleton] at hr
      rw [hr]
      exact .inl (Nat.le_of_eq hlo)
  · refine hother m ?_
    simp only [List.mem_append] at hm ⊢
    tauto

/-- Unless the remainder is a bare header, the node's bytes are those of the
block and of what is left. -/
theorem node_covered (hw : WellFormed h free) (ht : Takes h free size xs n ys rest h1)
    (hne : n.size.toNat ≠ roundUp size.toNat + 16) (x : Nat) :
    Covers (rest.map Block.span) x ∨ (ht.block.span.lo ≤ x ∧ x < ht.block.span.hi) ↔
      n.span.lo ≤ x ∧ x < n.span.hi := by
  obtain rfl := ht.free_eq
  have hblo : ht.block.span.lo = n.span.lo := rfl
  have hblt := ht.block.span.lt
  rcases ht.rest_lo (hw.below n (by simp)) with ⟨rfl, hle⟩ | ⟨m, rfl, -, hlo, hhi⟩
  · -- both sizes are multiples of 16
    have hal := n.size_aligned
    have hfits := ht.fits
    have hbhi : ht.block.span.hi = n.span.hi := by
      have ha := ht.amount
      unfold Aligned at hal
      unfold roundUp at hne hle hfits ha
      simp only [block, Node.span, Block.span]
      omega
    rw [List.map_nil, or_iff_right (not_covers_nil x), hblo, hbhi]
  · have hmlt := m.span.lt
    rw [List.map_singleton, covers_cons, or_iff_left (not_covers_nil x)]
    omega

theorem covered (hw : WellFormed h free) (ht : Takes h free size xs n ys rest h1)
    (hne : n.size.toNat ≠ roundUp size.toNat + 16) (x : Nat) :
    Covers ((xs ++ rest ++ ys).map Block.span) x ∨ (ht.block.span.lo ≤ x ∧ x < ht.block.span.hi) ↔
      Covers (free.map Block.span) x := by
  have hx := ht.node_covered hw hne x
  obtain rfl := ht.free_eq
  simp only [List.map_append, List.map_cons, covers_append, covers_cons]
  tauto

/-- A bare header at the end of the node is in neither. -/
theorem tail_lost (hw : WellFormed h free) (ht : Takes h free size xs n ys rest h1)
    (e : n.size.toNat = roundUp size.toNat + 16) :
    ∃ x, Covers (free.map Block.span) x ∧ ¬Covers ((xs ++ rest ++ ys).map Block.span) x ∧
      ¬(ht.block.span.lo ≤ x ∧ x < ht.block.span.hi) := by
  obtain rfl := ht.free_eq
  obtain ⟨rfl, -⟩ | ⟨-, -, hlt, -⟩ := ht.rest_lo (hw.below n (by simp))
  swap
  · exact absurd e (Nat.ne_of_gt hlt)
  have hbhi : ht.block.span.hi + 16 = n.span.hi := by
    have ha := ht.amount
    simp only [block, Node.span, Block.span]
    omega
  have hblt := ht.block.span.lt
  have hblo : ht.block.span.lo = n.span.lo := rfl
  refine ⟨ht.block.span.hi, ⟨n.span, List.mem_map_of_mem (by simp), by omega, by omega⟩, ?_, by omega⟩
  refine not_covers_of_apart (s := n.span) (fun t ht' => ?_) (by omega) (by omega)
  obtain ⟨m, hm, rfl⟩ := List.mem_map.1 ht'
  exact hw.others_apart m (by simpa using hm)

/-- `find?` finds the node that is taken. -/
theorem find (ht : Takes h free size xs n ys rest h1) :
    (free.find? fun n => roundUp size.toNat ≤ n.size.toNat) = some n := by
  rw [ht.free_eq, List.find?_eq_some_iff_append]
  exact ⟨by simpa using ht.fits, xs, ys, rfl, fun x hx => by simpa using ht.small x hx⟩

/-- The block given back at once. -/
theorem restores_iff (hw : WellFormed h free) (ht : Takes h free size xs n ys rest h1) :
    ∃ h2, kfree h1 (dataStart n.addr) = some h2 ∧
      (FreeChain h2 (free.map Block.node) ↔ n.size.toNat ≠ roundUp size.toNat + 16) := by
  have hn : n ∈ free := by
    rw [ht.free_eq]
    simp
  have hsize : h1.get n.addr .size = align16 size := BitVec.eq_of_toNat_eq (ht.recorded.trans ht.amount.symm)
  have hfits : ht.block.span.hi ≤ 2 ^ 32 := Nat.le_trans (Nat.le_trans ht.block_within.2 (hw.below n hn)) (by decide)
  have hal : ∀ m ∈ ht.block :: (xs ++ rest ++ ys).map Block.node, Aligned m.addr := by
    refine List.forall_mem_cons.2 ⟨n.aligned, fun m hm => ?_⟩
    obtain ⟨k, -, rfl⟩ := List.mem_map.1 hm
    exact k.aligned
  obtain ⟨h2, free', hk2, hfr⟩ := kfree_forward (b := ht.block) headers_aligned ht.wellFormed.forward hal hsize ht.mark
    hfits (ht.block_apart hw)
  refine ⟨h2, hk2, fun hc e => ?_, fun hne => ?_⟩
  · -- the last 16 bytes of the node are in no node after the call
    obtain rfl := hfr.toFreeChain.unique hc
    obtain ⟨x, hx, hno, hnb⟩ := ht.tail_lost hw e
    rw [← map_node_span, hfr.covers x, map_node_span] at hx
    exact hx.elim hno hnb
  · have hcov (x : Nat) : Covers (free'.map Node.span) x ↔ Covers ((free.map Block.node).map Node.span) x := by
      rw [hfr.covers x, map_node_span, map_node_span, ht.covered hw hne]
    have hspans := hfr.spaced.unique hw.forward.spaced hcov
    have e : free' = free.map Block.node := List.map_injective_iff.2 Node.span_injective hspans
    exact e ▸ hfr.toFreeChain

end Takes

end

/-- `kfree` right after `kmalloc` restores the free list, except when the first
node that is large enough has 16 bytes more than the rounded size. -/
theorem round_trip_iff {h h1 : Heap} {free : List Block} {size p : Word} (hw : WellFormed h free)
    (hk : kmalloc h size = some (p, h1)) (hp : p ≠ 0) :
    (∃ h2, kfree h1 p = some h2 ∧ FreeChain h2 (free.map Block.node)) ↔
      ∀ n, (free.find? fun n => roundUp size.toNat ≤ n.size.toNat) = some n → n.size.toNat ≠ roundUp size.toNat + 16 := by
  obtain ⟨-, hno⟩ | ⟨-, xs, n, ys, rest, h1', ht⟩ := kmalloc_takes hw size
  · rw [hno, Option.some.injEq, Prod.mk.injEq] at hk
    exact absurd hk.1.symm hp
  have hres := ht.result
  rw [hk, Option.some.injEq, Prod.mk.injEq] at hres
  obtain ⟨rfl, rfl⟩ := hres
  obtain ⟨h2, hk2, hiff⟩ := ht.restores_iff hw
  rw [ht.find]
  constructor
  · rintro ⟨h2', hk2', hc⟩ n' hn'
    obtain rfl : n = n' := Option.some.inj hn'
    obtain rfl : h2 = h2' := Option.some.inj (hk2.symm.trans hk2')
    exact hiff.1 hc
  · intro hne
    exact ⟨h2, hk2, hiff.2 (hne n rfl)⟩

theorem round_trip_iff_100 : ∃ h1 h2, kmalloc (kmeminit 0x20000 { mem := fun _ => 0, freeList := 0 }) 100 =
    some (0x20010, h1) ∧ kfree h1 0x20010 = some h2 := by
  have hk : ((kmalloc (kmeminit 0x20000 { mem := fun _ => 0, freeList := 0 }) 100).map Prod.fst) = some 0x20010 := by
    decide +kernel
  obtain ⟨⟨p, h1⟩, hk, rfl⟩ := Option.map_eq_some_iff.1 hk
  obtain ⟨h2, hk2, -⟩ := (round_trip_iff wellFormed_kmeminit hk (by simp)).2 (by decide +kernel)
  exact ⟨h1, h2, hk, hk2⟩

/-- All of the first node but a header is handed out: the last 16 bytes do not come back. -/
theorem round_trip_loses : ¬∀ (h h1 : Heap) (free : List Block) (size p : Word), WellFormed h free →
    kmalloc h size = some (p, h1) → p ≠ 0 → ∃ h2, kfree h1 p = some h2 ∧ FreeChain h2 (free.map Block.node) := by
  intro hall
  have hk : ((kmalloc (kmeminit 0x20000 { mem := fun _ => 0, freeList := 0 }) 0x7FFE0).map fun r =>
      (r.1, (kfree r.2 r.1).map fun h2 => h2.get 0x20000 .size)) = some (0x20010, some 0x7FFE0) := by
    decide +kernel
  obtain ⟨⟨p, h1⟩, hk, hr⟩ := Option.map_eq_some_iff.1 hk
  obtain ⟨rfl, hs⟩ := Prod.mk.inj hr
  obtain ⟨h2, hk2, hc⟩ := hall _ _ _ _ _ wellFormed_kmeminit hk (by simp)
  have hsize := hc.size (Block.node ⟨0x20000, 0x7FFF0, by decide, by decide, by decide⟩) (by simp)
  rw [hk2, Option.map_some, Option.some.injEq] at hs
  exact absurd (hs.symm.trans hsize) (by decide)

end Xeros
