import Xeros.Heap.Kfree
/-!
# First fit

On a free list that is in order, coalesced and right in both directions,
`kmalloc` takes the lowest node that is large enough for the rounded size and
keeps all of this (`kmalloc_first_fit`).
-/

namespace Xeros

open DLinks Span

/-- In order of address, nowhere touching, and linked in both directions. -/
structure WellFormed (h : Heap) (free : List Block) : Prop where
  list : DList h.ptrs 0 (free.map Block.addr)
  size : ∀ n ∈ free, h.get n.addr .size = n.size
  spaced : Spaced (free.map Block.span)
  below : ∀ n ∈ free, n.span.hi ≤ FREEMEM_END.toNat

/-! ## The rounded size -/

/-- `size` rounded up to a multiple of 16. -/
def roundUp (size : Nat) : Nat := (size + 15) / 16 * 16

theorem toInt_pos {x : Word} : 0 < x.toInt ↔ 0 < x.toNat ∧ x.toNat < 2 ^ 31 := by
  rw [BitVec.toInt_eq_toNat_cond]
  omega

/-- `align16` of a positive `int` does not overflow. -/
theorem align16_toNat {x : Word} (hx : 0 < x.toInt) : (align16 x).toNat = roundUp x.toNat := by
  obtain ⟨-, hlt⟩ := toInt_pos.1 hx
  have hm : x.msb = false := by
    rw [BitVec.msb_eq_decide, decide_eq_false_iff_not]
    omega
  have h16 : (16 : Word).msb = false := rfl
  have hdiv : (x / 16).toNat = x.toNat / 16 := rfl
  have hmod : (x % 16).toNat = x.toNat % 16 := rfl
  have e16 : BitVec.toNat (16 : Word) = 16 := rfl
  unfold align16 roundUp
  simp only [BitVec.sdiv_eq, BitVec.srem_eq, hm, h16]
  split
  · next e =>
    have h1 : BitVec.toNat (1 : Word) = 1 := rfl
    have h0 : (x % 16).toNat ≠ 0 := fun e' => e (BitVec.eq_of_toNat_eq e')
    rw [BitVec.toNat_mul, BitVec.toNat_add]
    simp only [BitVec.udiv_eq, hdiv, e16, h1]
    omega
  · next e =>
    have h1 : BitVec.toNat (0 : Word) = 0 := rfl
    have h0 : (x % 16).toNat = 0 := congrArg BitVec.toNat (not_not.1 e)
    rw [BitVec.toNat_mul, BitVec.toNat_add]
    simp only [BitVec.udiv_eq, hdiv, e16, h1]
    omega

/-! ## Taking a node -/

/-- All of the memory below `FREEMEM_END` as one region. -/
def wholeArena : Arena where
  regions := [⟨0, FREEMEM_END.toNat, by decide⟩]
  separate := by
    intro r hr r' hr'
    rw [List.mem_singleton] at hr hr'
    exact .inl (hr.trans hr'.symm)
  below := by
    intro r hr
    rw [List.mem_singleton.1 hr]

theorem Represents.wellFormed {h : Heap} {free live : List Block} (hr : Represents wholeArena h free live)
    (hsp : Spaced (free.map Block.span)) : WellFormed h free :=
  ⟨hr.list, fun n hn => hr.size n (List.mem_append_left _ hn), hsp, fun _ hn => hr.below (List.mem_append_left _ hn)⟩

namespace WellFormed
variable {h h' : Heap} {free xs ys rest : List Block} {n : Block}

theorem represents (hw : WellFormed h free) : Represents wholeArena h free [] := by
  refine ⟨hw.list, ?_, by simp, ?_, ?_⟩
  · simpa using hw.size
  · simpa using hw.spaced.apart
  · intro s hs
    rw [List.append_nil] at hs
    obtain ⟨n, hn, rfl⟩ := List.mem_map.1 hs
    exact ⟨_, List.mem_singleton_self _, Nat.zero_le _, hw.below n hn⟩

/-- What stays free of a node lies inside it, so the order is kept. -/
theorem of_take {live : List Block} (hw : WellFormed h (xs ++ n :: ys)) {amount : Word}
    (hrest : Remainder n amount rest) (hr : Represents wholeArena h' (xs ++ rest ++ ys) live) :
    WellFormed h' (xs ++ rest ++ ys) := by
  have hs := hw.spaced
  rw [List.map_append, List.map_cons] at hs
  refine ⟨hr.list, fun m hm => hr.size m (List.mem_append_left _ hm), ?_, fun m hm => hr.below (List.mem_append_left _ hm)⟩
  cases hrest with
  | whole _ =>
    rw [List.append_nil, List.map_append]
    exact hs.sublist (List.Sublist.append_left (List.sublist_cons_self ..) _)
  | split m hroom hm hms =>
    have hn := hw.below n (by simp)
    have hle : m.span.Within n.span := by
      have hend : FREEMEM_END.toNat = 0x400000 := rfl
      simp only [Block.span, hend] at hn
      simp only [Within, Block.span, hm, hms, dataStart, SIZEOF_MEMHEADER]
      bv_omega
    have hs' := hs.shrink hle
    simpa using hs'

end WellFormed

/-! ## The call -/

/-- There is no block of this size. -/
def NoFit (free : List Block) (size : Word) : Prop :=
  size.toInt ≤ 0 ∨ ∀ n ∈ free, n.size.toNat < roundUp size.toNat

instance (free : List Block) (size : Word) : Decidable (NoFit free size) := inferInstanceAs (Decidable (_ ∨ _))

/-- What `kmalloc` does when there is: `n` is the first node that fits, and `rest` is what is left of it. -/
structure Takes (h : Heap) (free : List Block) (size : Word) (xs : List Block) (n : Block) (ys rest : List Block)
    (h' : Heap) : Prop where
  free_eq : free = xs ++ n :: ys
  small : ∀ x ∈ xs, x.size.toNat < roundUp size.toNat
  fits : roundUp size.toNat ≤ n.size.toNat
  remainder : Remainder n (align16 size) rest
  result : kmalloc h size = some (dataStart n.addr, h')
  nonnull : dataStart n.addr ≠ 0
  recorded : (h'.get n.addr .size).toNat = roundUp size.toNat
  mark : h'.get n.addr .sanityCheck = dataStart n.addr
  wellFormed : WellFormed h' (xs ++ rest ++ ys)

/-- What `kmalloc` does beside blocks that are handed out. -/
theorem kmalloc_takes_beside {h : Heap} {free live : List Block} (hr : Represents wholeArena h free live)
    (hsp : Spaced (free.map Block.span)) (size : Word) :
    NoFit free size ∧ kmalloc h size = some (0, h) ∨
      ¬NoFit free size ∧ ∃ xs n ys rest h' b, Takes h free size xs n ys rest h' ∧ b.addr = n.addr ∧
        b.size = align16 size ∧ Represents wholeArena h' (xs ++ rest ++ ys) (b :: live) := by
  by_cases hs : size.toInt ≤ 0
  · exact .inl ⟨.inl hs, by unfold kmalloc; rw [if_pos hs]⟩
  have hamount := align16_toNat (Int.not_le.1 hs)
  have hw := hr.wellFormed hsp
  rcases kmalloc_spec hr size with ⟨hk, hno⟩ | ⟨xs, n, ys, rest, b, h', rfl, hxs, hn, hrest, hb, hbs, hk, hr'⟩
  · refine .inl ⟨.inr fun n hn => ?_, hk⟩
    rw [← hamount]
    exact hno.resolve_left hs n hn
  · have hfits : roundUp size.toNat ≤ n.size.toNat := hamount ▸ hn
    refine .inr ⟨?_, xs, n, ys, rest, h', b, ⟨rfl, fun x hx => hamount ▸ hxs x hx, hfits, hrest, by rw [hk, hb], ?_, ?_,
      ?_, hw.of_take hrest hr'⟩, hb, hbs, hr'⟩
    · rintro (hle | hall)
      · exact hs hle
      · exact Nat.lt_irrefl _ (Nat.lt_of_lt_of_le (hall n (by simp)) hfits)
    · have hbelow := hr.below (b := n) (by simp)
      simp only [dataStart, SIZEOF_MEMHEADER]
      bv_omega
    · rw [← hb, hr'.size b (by simp), hbs, hamount]
    · rw [← hb, hr'.mark b (by simp)]

theorem kmalloc_takes {h : Heap} {free : List Block} (hw : WellFormed h free) (size : Word) :
    NoFit free size ∧ kmalloc h size = some (0, h) ∨
      ¬NoFit free size ∧ ∃ xs n ys rest h', Takes h free size xs n ys rest h' := by
  rcases kmalloc_takes_beside hw.represents hw.spaced size with h | ⟨hyes, xs, n, ys, rest, h', b, ht, -⟩
  · exact .inl h
  · exact .inr ⟨hyes, xs, n, ys, rest, h', ht⟩

/-- `kmalloc` gives NULL exactly when the size is not positive or no node is
large enough, and then leaves the heap alone; otherwise it is first fit. -/
theorem kmalloc_first_fit {h : Heap} {free : List Block} (hw : WellFormed h free) (size : Word) :
    ((∃ h', kmalloc h size = some (0, h')) ↔ NoFit free size) ∧
    (NoFit free size → kmalloc h size = some (0, h)) ∧
    (¬NoFit free size → ∃ xs n ys rest h', Takes h free size xs n ys rest h') := by
  rcases kmalloc_takes hw size with ⟨hno, hk⟩ | ⟨hyes, xs, n, ys, rest, h', ht⟩
  · exact ⟨⟨fun _ => hno, fun _ => ⟨h, hk⟩⟩, fun _ => hk, fun hyes => absurd hno hyes⟩
  · refine ⟨⟨fun ⟨h2, h0⟩ => ?_, fun hno => absurd hno hyes⟩, fun hno => absurd hno hyes, fun _ => ⟨xs, n, ys, rest, h', ht⟩⟩
    rw [ht.result, Option.some.injEq, Prod.mk.injEq] at h0
    exact absurd h0.1 ht.nonnull

theorem wellFormed_kmeminit : WellFormed (kmeminit 0x20000 { mem := fun _ => 0, freeList := 0 })
    [⟨0x20000, 0x7FFF0, by decide, by decide, by decide⟩, ⟨HOLEEND, 0x269FF0, by decide, by decide, by decide⟩] :=
  ⟨⟨by decide +kernel, by decide +kernel⟩, by decide +kernel, by decide +kernel, by decide +kernel⟩

theorem kmalloc_first_fit_100 : ∃ h' free', kmalloc (kmeminit 0x20000 { mem := fun _ => 0, freeList := 0 }) 100 =
    some (0x20010, h') ∧ (h'.get 0x20000 .size).toNat = 112 ∧ WellFormed h' free' := by
  obtain ⟨xs, n, ys, rest, h', ht⟩ := (kmalloc_first_fit wellFormed_kmeminit 100).2.2 (by decide +kernel)
  have hn : n.addr = 0x20000 := by
    cases xs with
    | nil => exact congrArg Block.addr (List.cons.inj ht.free_eq).1.symm
    | cons x xs =>
      have hx := ht.small x (by simp)
      rw [← (List.cons.inj ht.free_eq).1] at hx
      exact absurd hx (by decide)
  refine ⟨h', _, ?_, ?_, ht.wellFormed⟩
  · rw [ht.result, hn]
    rfl
  · rw [← hn, ht.recorded]
    rfl

end Xeros
