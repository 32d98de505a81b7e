import Xeros.Lib.DLinks
import Xeros.Lib.Spans
import Xeros.Model.Mem
/-!
# What a heap holds

Headers lie at multiples of 16, so two of them share no word and a heap reads
like a table of headers (`Heap.get_set`). `Represents A h free live` says what
the table means: the free list is `free` in both directions, the blocks handed
out are `live`, their spans do not meet, and all of them lie inside the arena.
-/

namespace Xeros

open DLinks Span

def Aligned (a : Word) : Prop := a.toNat % 16 = 0

instance (a : Word) : Decidable (Aligned a) := inferInstanceAs (Decidable (_ = _))

/-! ## Headers as a table -/

/-- Places for headers: no two of them share a word. -/
def Headers (P : Word → Prop) : Prop :=
  ∀ ⦃a b : Word⦄, P a → P b → ∀ f g : HdrField, ¬(b = a ∧ g = f) → Mem.Apart (b + g.offset) (a + f.offset)

namespace HdrField
variable {a b : Word} {f g : HdrField}

theorem offset_le (f : HdrField) : f.offset.toNat ≤ 12 := by
  cases f <;> decide

theorem offset_aligned (f : HdrField) : f.offset.toNat % 4 = 0 := by
  cases f <;> rfl

theorem offset_inj (h : f.offset.toNat = g.offset.toNat) : f = g := by
  cases f <;> cases g <;> first | rfl | exact absurd h (by decide)

/-- Two words of one header. -/
theorem apart_same (h : g ≠ f) : Mem.Apart (a + g.offset) (a + f.offset) := by
  have hne : g.offset.toNat ≠ f.offset.toNat := fun e => h (offset_inj e)
  have hf := f.offset_le
  have hg := g.offset_le
  have hf4 := f.offset_aligned
  have hg4 := g.offset_aligned
  unfold Mem.Apart
  constructor <;> bv_omega

theorem apart (ha : Aligned a) (hb : Aligned b) (hne : ¬(b = a ∧ g = f)) :
    Mem.Apart (b + g.offset) (a + f.offset) := by
  by_cases hab : b = a
  · subst hab
    exact apart_same fun e => hne ⟨rfl, e⟩
  · have hf := f.offset_le
    have hg := g.offset_le
    unfold Aligned at ha hb
    unfold Mem.Apart
    constructor <;> bv_omega

end HdrField

theorem headers_aligned : Headers Aligned := fun _ _ ha hb _ _ hne => HdrField.apart ha hb hne

namespace Heap

theorem get_set_of {P : Word → Prop} (hP : Headers P) (h : Heap) {a b : Word} (f g : HdrField) (v : Word) (ha : P a)
    (hb : P b) : (h.set a f v).get b g = if b = a ∧ g = f then v else h.get b g := by
  split
  · next e =>
    obtain ⟨rfl, rfl⟩ := e
    simp [get, set]
  · next e => exact Mem.load32_store32_of_apart _ _ (hP ha hb f g e)

theorem get_set (h : Heap) {a b : Word} (f g : HdrField) (v : Word) (ha : Aligned a) (hb : Aligned b) :
    (h.set a f v).get b g = if b = a ∧ g = f then v else h.get b g :=
  get_set_of headers_aligned h f g v ha hb

/-- The pointers of the free list; its head is the pointer in front of the first node. -/
def ptrs (h : Heap) : Ptrs Word := ⟨fun a => if a = 0 then h.freeList else h.get a .next, fun a => h.get a .prev⟩

@[simp] theorem ptrs_fw_null (h : Heap) : h.ptrs.fw 0 = h.freeList := by simp [ptrs]

theorem ptrs_fw (h : Heap) {a : Word} (ha : a ≠ 0) : h.ptrs.fw a = h.get a .next := if_neg ha

@[simp] theorem ptrs_bk (h : Heap) (a : Word) : h.ptrs.bk a = h.get a .prev := rfl

end Heap

/-! ## Blocks -/

theorem aligned_zero : Aligned 0 := rfl

/-- A header and the payload behind it. -/
structure Block where
  addr : Word
  size : Word
  aligned : Aligned addr
  size_aligned : Aligned size
  nonnull : addr ≠ 0

def Block.span (b : Block) : Span :=
  ⟨b.addr.toNat, b.addr.toNat + 16 + b.size.toNat, by omega⟩

/-- The pointers next to a place in a list are null or headers of the list. -/
theorem last_addr (xs : List Block) :
    (xs.map Block.addr).getLastD 0 = 0 ∨ ∃ b ∈ xs, b.addr = (xs.map Block.addr).getLastD 0 := by
  rcases getLastD_mem 0 (xs.map Block.addr) with h | h
  · exact .inl h
  · exact .inr (List.mem_map.1 h)

theorem head_addr (ys : List Block) :
    (ys.map Block.addr).headD 0 = 0 ∨ ∃ b ∈ ys, b.addr = (ys.map Block.addr).headD 0 := by
  rcases headD_mem 0 (ys.map Block.addr) with h | h
  · exact .inl h
  · exact .inr (List.mem_map.1 h)

theorem aligned_last (xs : List Block) : Aligned ((xs.map Block.addr).getLastD 0) := by
  rcases last_addr xs with h | ⟨b, -, h⟩
  · rw [h]; exact aligned_zero
  · exact h ▸ b.aligned

theorem aligned_head (ys : List Block) : Aligned ((ys.map Block.addr).headD 0) := by
  rcases head_addr ys with h | ⟨b, -, h⟩
  · rw [h]; exact aligned_zero
  · exact h ▸ b.aligned

theorem ne_last (xs : List Block) {n : Block} (h : ∀ c ∈ xs, c.addr ≠ n.addr) :
    n.addr ≠ (xs.map Block.addr).getLastD 0 := by
  rcases last_addr xs with e | ⟨c, hc, e⟩
  · rw [e]; exact n.nonnull
  · rw [← e]; exact (h c hc).symm

theorem ne_head (ys : List Block) {n : Block} (h : ∀ c ∈ ys, c.addr ≠ n.addr) :
    n.addr ≠ (ys.map Block.addr).headD 0 := by
  rcases head_addr ys with e | ⟨c, hc, e⟩
  · rw [e]; exact n.nonnull
  · rw [← e]; exact (h c hc).symm

/-- What lies at multiples of 16, payloads too, is the same but for the headers
of these blocks. -/
def Heap.SameBut (l : List Block) (h h' : Heap) : Prop :=
  ∀ c g, Aligned c → c ≠ 0 → (∀ n ∈ l, c ≠ n.addr) → h'.get c g = h.get c g

theorem Heap.SameBut.trans {l l1 l2 : List Block} {h h1 h2 : Heap} (ha : h.SameBut l1 h1) (hb : h1.SameBut l2 h2)
    (hl1 : ∀ n ∈ l1, n ∈ l) (hl2 : ∀ n ∈ l2, ∃ m ∈ l, m.addr = n.addr) : h.SameBut l h2 := by
  intro c g hc hc0 hout
  have h1' := ha c g hc hc0 fun n hn => hout n (hl1 n hn)
  have h2' := hb c g hc hc0 fun n hn e => by
    obtain ⟨m, hm, hmn⟩ := hl2 n hn
    exact hout m hm (e.trans hmn.symm)
  exact h2'.trans h1'

/-- Where the allocator may put blocks. -/
structure Arena where
  regions : List Span
  separate : Separate regions
  below : ∀ r ∈ regions, r.hi ≤ FREEMEM_END.toNat

structure Represents (A : Arena) (h : Heap) (free live : List Block) : Prop where
  list : DList h.ptrs 0 (free.map Block.addr)
  size : ∀ b ∈ free ++ live, h.get b.addr .size = b.size
  mark : ∀ b ∈ live, h.get b.addr .sanityCheck = dataStart b.addr
  packed : Packed A.regions ((free ++ live).map Block.span)

/-- The blocks of an edit, in front of the others. -/
theorem perm_edit (xs ns ys ls live : List Block) :
    ((xs ++ ns ++ ys) ++ (ls ++ live)).Perm (ns ++ ls ++ (xs ++ ys ++ live)) := by
  classical
  refine List.perm_iff_count.2 fun b => ?_
  simp only [List.count_append]
  omega

/-- Blocks whose spans do not meet have different headers. -/
theorem addr_nodup {R : List Span} {l : List Block} (hp : Packed R (l.map Block.span)) : (l.map Block.addr).Nodup := by
  have ha := hp.apart
  rw [List.pairwise_map] at ha
  rw [List.Nodup, List.pairwise_map]
  refine ha.imp fun {b c} hbc e => ?_
  simp only [Span.Apart, Block.span, e] at hbc
  omega

theorem addr_ne {R : List Span} {l : List Block} {n : Block} (hp : Packed R ((n :: l).map Block.span)) :
    ∀ c ∈ l, c.addr ≠ n.addr := by
  intro c hc e
  have hn := addr_nodup hp
  rw [List.map_cons, List.nodup_cons, ← e] at hn
  exact hn.1 (List.mem_map_of_mem hc)

namespace Represents
variable {A : Arena} {h h' : Heap} {free live xs os ns ys ls ls' : List Block}

theorem below (hr : Represents A h free live) {b : Block} (hb : b ∈ free ++ live) :
    b.addr.toNat + 16 + b.size.toNat ≤ 0x400000 := by
  obtain ⟨r, hr, hw⟩ := hr.packed.within b.span (List.mem_map_of_mem hb)
  exact Nat.le_trans hw.2 (A.below r hr)

theorem apart (hr : Represents A h free live) {b c : Block} (hb : b ∈ free ++ live) (hc : c ∈ free ++ live)
    (hne : b.addr ≠ c.addr) : Apart b.span c.span := by
  have hp := List.pairwise_map.1 hr.packed.apart
  have hsym : Std.Symm fun b c : Block => Apart b.span c.span := ⟨fun _ _ => Apart.symm⟩
  exact hp.forall hb hc fun e => hne (by rw [e])

/-- The spans of an edit, in front of the others. -/
theorem packed_edit (hr : Represents A h (xs ++ os ++ ys) (ls ++ live)) :
    Packed A.regions ((os ++ ls ++ (xs ++ ys ++ live)).map Block.span) :=
  hr.packed.perm ((perm_edit xs os ys ls live).map _)

/-- The links of a free node. -/
theorem links {n : Block} (hr : Represents A h (xs ++ n :: ys) live) :
    h.get n.addr .prev = (xs.map Block.addr).getLastD 0 ∧ h.get n.addr .next = (ys.map Block.addr).headD 0 := by
  have hl := hr.list
  rw [List.map_append, List.map_cons] at hl
  obtain ⟨h1, -, h3, -⟩ := hl.at_node
  rw [Heap.ptrs_fw _ n.nonnull] at h3
  exact ⟨h1, h3⟩

theorem null_not_mem (hr : Represents A h free live) : (0 : Word) ∉ free.map Block.addr :=
  (List.nodup_cons.1 hr.list.nodup).1

theorem freeList_eq (hr : Represents A h free live) : h.freeList = (free.map Block.addr).headD 0 := by
  rw [← Heap.ptrs_fw_null, hr.list.head]

/-- What a walk over the free list sees. -/
theorem next_chain (hr : Represents A h free live) :
    (free.map Block.addr ++ [0]).IsChain fun x y => h.get x .next = y := by
  have hc := hr.list.chain
  rw [List.cons_append] at hc
  refine isChain_congr hc.of_cons fun x hx y _ hxy => ?_
  rw [List.dropLast_concat] at hx
  rw [← Heap.ptrs_fw _ fun e => hr.null_not_mem (e ▸ hx)]
  exact hxy.1

/-- No other header is at the address of a free node. -/
theorem ne_addr {n : Block} (hr : Represents A h (xs ++ n :: ys) live) : ∀ c ∈ xs ++ ys ++ live, c.addr ≠ n.addr := by
  have hr' : Represents A h (xs ++ [n] ++ ys) ([] ++ live) := by simpa using hr
  exact addr_ne hr'.packed_edit

/-- The one rule for changes. The free nodes `os` and the live blocks `ls` go,
`ns` and `ls'` take their places; of the other headers only the two pointers
across the edit may change. -/
theorem edit (hr : Represents A h (xs ++ os ++ ys) (ls ++ live)) {q r : Word}
    (hq : (xs.map Block.addr).getLastD 0 = q) (hy : (ys.map Block.addr).headD 0 = r)
    (hfree : q ≠ 0 → h'.freeList = h.freeList)
    (hframe : ∀ b ∈ xs ++ ys ++ live, ∀ g, ¬(b.addr = q ∧ g = .next) → ¬(b.addr = r ∧ g = .prev) →
      h'.get b.addr g = h.get b.addr g)
    (hmid : (q :: ns.map Block.addr ++ [r]).IsChain (Adj h'.ptrs 0))
    (hsize : ∀ b ∈ ns ++ ls', h'.get b.addr .size = b.size)
    (hmark : ∀ b ∈ ls', h'.get b.addr .sanityCheck = dataStart b.addr)
    (hpack : Packed A.regions ((ns ++ ls' ++ (xs ++ ys ++ live)).map Block.span)) :
    Represents A h' (xs ++ ns ++ ys) (ls' ++ live) := by
  have hold : ∀ b ∈ xs ++ ys ++ live, b ∈ (xs ++ os ++ ys) ++ (ls ++ live) := by
    intro b hb
    simp only [List.mem_append] at hb ⊢
    tauto
  have hpack' : Packed A.regions (((xs ++ ns ++ ys) ++ (ls' ++ live)).map Block.span) :=
    hpack.perm ((perm_edit xs ns ys ls' live).symm.map _)
  refine ⟨?_, ?_, ?_, hpack'⟩
  · have hl := hr.list
    simp only [List.map_append] at hl ⊢
    subst hq hy
    refine hl.splice (fun x hx hxq => ?_) (fun y hy hyr => ?_) hmid ?_
    · rcases List.mem_cons.1 hx with rfl | hx
      · rw [Heap.ptrs_fw_null, Heap.ptrs_fw_null, hfree (Ne.symm hxq)]
      · rw [← List.map_append] at hx
        obtain ⟨b, hb, rfl⟩ := List.mem_map.1 hx
        rw [Heap.ptrs_fw _ b.nonnull, Heap.ptrs_fw _ b.nonnull]
        exact hframe b (List.mem_append_left _ hb) _ (fun e => hxq e.1) (by simp)
    · rw [← List.map_append] at hy
      obtain ⟨b, hb, rfl⟩ := List.mem_map.1 hy
      exact hframe b (List.mem_append_left _ hb) _ (by simp) (fun e => hyr e.1)
    · have hn := addr_nodup hpack'
      simp only [List.map_append] at hn
      refine List.nodup_cons.2 ⟨?_, (List.nodup_append.1 hn).1⟩
      simp only [← List.map_append]
      intro h0
      obtain ⟨b, -, hb⟩ := List.mem_map.1 h0
      exact b.nonnull hb
  · intro b hb
    rcases List.mem_append.1 ((perm_edit xs ns ys ls' live).mem_iff.1 hb) with hb | hb
    · exact hsize b hb
    · rw [hframe b hb _ (by simp) (by simp)]
      exact hr.size b (hold b hb)
  · intro b hb
    rcases List.mem_append.1 hb with hb | hb
    · exact hmark b hb
    · rw [hframe b (List.mem_append_right _ hb) _ (by simp) (by simp)]
      exact hr.mark b (List.mem_append_right _ hb)

/-- A change that no header sees. -/
theorem congr (hr : Represents A h free live) (hf : h'.freeList = h.freeList)
    (hg : ∀ b ∈ free ++ live, ∀ g, h'.get b.addr g = h.get b.addr g) : Represents A h' free live := by
  refine ⟨⟨isChain_congr hr.list.chain fun x hx y hy hxy => ?_, hr.list.nodup⟩,
    fun b hb => (hg b hb _).trans (hr.size b hb),
    fun b hb => (hg b (List.mem_append_right _ hb) _).trans (hr.mark b hb), hr.packed⟩
  rw [List.dropLast_concat] at hx
  rw [List.cons_append, List.tail_cons] at hy
  refine ⟨?_, fun hy0 => ?_⟩
  · rw [← hxy.1]
    rcases List.mem_cons.1 hx with rfl | hx
    · rw [Heap.ptrs_fw_null, Heap.ptrs_fw_null, hf]
    · obtain ⟨b, hb, rfl⟩ := List.mem_map.1 hx
      rw [Heap.ptrs_fw _ b.nonnull, Heap.ptrs_fw _ b.nonnull]
      exact hg b (List.mem_append_left _ hb) _
  · rw [← hxy.2 hy0]
    rcases List.mem_append.1 hy with hy | hy
    · obtain ⟨b, hb, rfl⟩ := List.mem_map.1 hy
      exact hg b (List.mem_append_left _ hb) _
    · exact absurd (List.mem_singleton.1 hy) hy0

end Represents

end Xeros
