import Xeros.Heap.Blocks
/-!
# `kmalloc`

`kmalloc` takes the first node that is large enough. It unlinks it through the
two pointers next to it, so it relies on both directions of the list.
-/

namespace Xeros

open DLinks Span

/-! ## Links that may be null -/

namespace Heap
variable {h : Heap} {a b v : Word} {f g : HdrField}

/-- `if (a) a->prev = v`. -/
def putPrev (h : Heap) (a v : Word) : Heap := if a ≠ 0 then h.set a .prev v else h

/-- `if (a) a->next = v; else freeList = v`. -/
def putNext (h : Heap) (a v : Word) : Heap := if a ≠ 0 then h.set a .next v else { h with freeList := v }

theorem get_putPrev_of {P : Word → Prop} (hP : Headers P) (ha : a ≠ 0 → P a) (hb : P b) (h0 : b ≠ 0) :
    (h.putPrev a v).get b g = if b = a ∧ g = .prev then v else h.get b g := by
  unfold putPrev
  split
  · next e => exact get_set_of hP h _ _ _ (ha e) hb
  · next e =>
    rw [if_neg]
    rintro ⟨rfl, -⟩
    exact e h0

theorem get_putPrev (ha : Aligned a) (hb : Aligned b) (h0 : b ≠ 0) :
    (h.putPrev a v).get b g = if b = a ∧ g = .prev then v else h.get b g :=
  get_putPrev_of headers_aligned (fun _ => ha) hb h0

theorem get_putNext (ha : Aligned a) (hb : Aligned b) (h0 : b ≠ 0) :
    (h.putNext a v).get b g = if b = a ∧ g = .next then v else h.get b g := by
  unfold putNext
  split
  · exact get_set h _ _ _ ha hb
  · next e =>
    rw [if_neg]
    · rfl
    · rintro ⟨rfl, -⟩
      exact e h0

@[simp] theorem freeList_putPrev : (h.putPrev a v).freeList = h.freeList := by
  unfold putPrev
  split <;> rfl

@[simp] theorem freeList_putNext : (h.putNext a v).freeList = if a = 0 then v else h.freeList := by
  unfold putNext
  split <;> simp_all

end Heap

/-! ## The walk -/

/-- The walk ends at the first node that is large enough. -/
theorem kmalloc_walk_eq {h : Heap} {amount : Word} {l : List Word} {n : Nat}
    (hc : (l ++ [0]).IsChain fun x y => h.get x .next = y) (h0 : 0 ∉ l) (hn : l.length < n) :
    kmalloc_walk h amount n (l.headD 0) = some ((l.find? fun a => amount ≤ h.get a .size).getD 0) := by
  induction l generalizing n with
  | nil =>
    obtain ⟨n, rfl⟩ : ∃ m, n = m + 1 := ⟨n - 1, by simp at hn; omega⟩
    simp [kmalloc_walk]
  | cons a l ih =>
    obtain ⟨n, rfl⟩ : ∃ m, n = m + 1 := ⟨n - 1, by simp at hn; omega⟩
    simp only [List.mem_cons, not_or] at h0
    simp only [List.length_cons] at hn
    have ha : a ≠ 0 := Ne.symm h0.1
    have hnext : h.get a .next = l.headD 0 ∧ (l ++ [0]).IsChain fun x y => h.get x .next = y := by
      cases l with
      | nil => exact ⟨by simpa using hc, by simp⟩
      | cons b l => exact List.isChain_cons_cons.1 hc
    rw [kmalloc_walk, List.headD_cons, hnext.1, ih hnext.2 h0.2 (by omega)]
    by_cases hs : amount ≤ h.get a .size
    · rw [if_neg (by simp [hs]), List.find?_cons_of_pos (by simpa using hs)]
      rfl
    · rw [if_pos ⟨ha, BitVec.not_le.1 hs⟩, List.find?_cons_of_neg (by simpa using hs)]

/-- More headers than fit into memory cannot be listed. -/
theorem length_lt_fuel {l : List Word} (hn : l.Nodup) (h0 : 0 ∉ l) : l.length < WALK_FUEL := by
  have h1 : (0 :: l).Nodup := List.nodup_cons.2 ⟨h0, hn⟩
  have h2 : ((0 :: l).map BitVec.toNat).Nodup := h1.map fun _ _ => BitVec.eq_of_toNat_eq
  have h3 : (0 :: l).map BitVec.toNat ⊆ List.range WALK_FUEL := by
    intro x hx
    obtain ⟨a, -, rfl⟩ := List.mem_map.1 hx
    exact List.mem_range.2 a.isLt
  have h4 := (h2.subperm h3).length_le
  rwa [List.length_map, List.length_range] at h4

/-! ## Taking a node -/

/-- The header of a live block. -/
def liveHeader (n amount : Word) : HdrField → Word
  | .size => amount
  | .prev => 0
  | .next => 0
  | .sanityCheck => dataStart n

/-- The end of `kmalloc`: `x` takes the place of `n` behind `q`. -/
def Heap.handOut (h : Heap) (n q x amount : Word) : Heap :=
  ((((h.putPrev x q).putNext q x).set n .size amount).set n .next 0).set n .prev 0 |>.set n .sanityCheck (dataStart n)

section
variable {h : Heap} {amount n q r x b : Word} {g : HdrField}

theorem Heap.get_handOut (h : Heap) (amount : Word) (hn : Aligned n) (hq : Aligned q) (hx : Aligned x)
    (hb : Aligned b) (h0 : b ≠ 0) :
    (h.handOut n q x amount).get b g =
      if b = n then liveHeader n amount g
      else if b = q ∧ g = .next then x
      else if b = x ∧ g = .prev then q
      else h.get b g := by
  unfold handOut
  simp only [get_set _ _ _ _ hn hb, get_putNext hq hb h0, get_putPrev hx hb h0]
  by_cases hbn : b = n
  · cases g <;> simp [hbn, liveHeader]
  · simp only [hbn, false_and, if_false]

@[simp] theorem Heap.freeList_handOut :
    (h.handOut n q x amount).freeList = if q = 0 then x else h.freeList := by
  simp [handOut]

/-- The code reads `node->prev` again after the first store; it is still `q`. -/
theorem take_tail (hn : Aligned n) (hn0 : n ≠ 0) (hx : Aligned x) (hnx : n ≠ x) (hq : h.get n .prev = q) :
    (let h := if x ≠ 0 then h.set x .prev (h.get n .prev) else h
      let h := if h.get n .prev ≠ 0 then h.set (h.get n .prev) .next x else { h with freeList := x }
      let h := h.set n .size amount
      let h := h.set n .next 0
      let h := h.set n .prev 0
      h.set n .sanityCheck (dataStart n)) = h.handOut n q x amount := by
  have e : (if x ≠ 0 then h.set x .prev q else h).get n .prev = q := by
    rw [← Heap.putPrev, Heap.get_putPrev hx hn hn0, if_neg (fun e => hnx e.1), hq]
  simp only [hq, e]
  rfl

theorem kmalloc_take_whole (hn : Aligned n) (hn0 : n ≠ 0) (hr : Aligned r) (hnr : n ≠ r)
    (hs : ¬0 < (h.get n .size - amount - SIZEOF_MEMHEADER).toInt) (eq : h.get n .prev = q) (er : h.get n .next = r) :
    kmalloc_take h amount n = h.handOut n q r amount := by
  unfold kmalloc_take
  simp only [if_neg hs, er]
  exact take_tail hn hn0 hr hnr eq

theorem kmalloc_take_split {m : Word} (hn : Aligned n) (hn0 : n ≠ 0) (hr : Aligned r) (hnr : n ≠ r) (hm : Aligned m)
    (hnm : n ≠ m) (hs : 0 < (h.get n .size - amount - SIZEOF_MEMHEADER).toInt) (eq : h.get n .prev = q)
    (er : h.get n .next = r) (em : dataStart n + amount = m) :
    kmalloc_take h amount n =
      (((h.set m .size (h.get n .size - amount - SIZEOF_MEMHEADER)).set m .next r).putPrev r m).handOut n q m amount := by
  have e1 (v : Word) : (h.set m .size v).get n .next = r := by
    rw [Heap.get_set _ _ _ _ hm hn, if_neg (fun e => hnm e.1), er]
  have e2 (v w : Word) : ((h.set m .size v).set m .next w).get n .next = r := by
    rw [Heap.get_set _ _ _ _ hm hn, if_neg (fun e => hnm e.1), e1]
  have e3 (v w : Word) : (((h.set m .size v).set m .next w).putPrev r m).get n .prev = q := by
    rw [Heap.get_putPrev hr hn hn0, if_neg (fun e => hnr e.1), Heap.get_set _ _ _ _ hm hn,
      if_neg (fun e => hnm e.1), Heap.get_set _ _ _ _ hm hn, if_neg (fun e => hnm e.1), eq]
  unfold kmalloc_take
  simp only [if_pos hs, em, e1, e2]
  exact take_tail hn hn0 hm hnm (e3 _ _)

end

/-- What stays free of `n` when `amount` bytes of it are handed out. -/
inductive Remainder (n : Block) (amount : Word) : List Block → Prop
  | whole : n.size.toNat ≤ amount.toNat + 16 → Remainder n amount []
  | split (m : Block) : amount.toNat + 16 < n.size.toNat → m.addr = dataStart n.addr + amount →
      m.size = n.size - amount - SIZEOF_MEMHEADER → Remainder n amount [m]

/-- `rmdSize > 0`: there is room for a header and more behind the bytes taken. -/
theorem rmdSize_pos {s a : Word} (hs : s.toNat < 0x400000) (ha : a.toNat ≤ s.toNat) :
    0 < (s - a - SIZEOF_MEMHEADER).toInt ↔ a.toNat + 16 < s.toNat := by
  have h16 : BitVec.toNat SIZEOF_MEMHEADER = 16 := rfl
  rw [BitVec.toInt_eq_toNat_cond]
  simp only [BitVec.toNat_sub, h16]
  omega

section
variable {A : Arena} {h : Heap} {xs ys live : List Block} {n : Block} {amount : Word}

theorem represents_take_whole (hr : Represents A h (xs ++ n :: ys) live) {b : Block} (hb : b.addr = n.addr)
    (hle : b.size.toNat ≤ n.size.toNat) (hs : ¬0 < (h.get n.addr .size - b.size - SIZEOF_MEMHEADER).toInt) :
    Represents A (kmalloc_take h b.size n.addr) (xs ++ [] ++ ys) ([b] ++ live) := by
  have hr' : Represents A h (xs ++ [n] ++ ys) ([] ++ live) := by simpa using hr
  have hne := hr.ne_addr
  have hnq := ne_last xs fun c hc => hne c (by simp [hc])
  have hnr := ne_head ys fun c hc => hne c (by simp [hc])
  have hqa := aligned_last xs
  have hra := aligned_head ys
  obtain ⟨hq, hrr⟩ := hr.links
  have hp : Packed A.regions (([] ++ [b] ++ (xs ++ ys ++ live)).map Block.span) := by
    refine Packed.shrink (s := n.span) (by simpa using hr'.packed_edit) ?_
    simp only [Within, Block.span, hb]
    omega
  rw [kmalloc_take_whole n.aligned n.nonnull hra hnr hs hq hrr]
  set q := (xs.map Block.addr).getLastD 0 with hqe
  set r := (ys.map Block.addr).headD 0 with hre
  have hget {c : Word} {g : HdrField} (hc : Aligned c) (hc0 : c ≠ 0) :=
    Heap.get_handOut h b.size (g := g) n.aligned hqa hra hc hc0
  refine hr'.edit hqe.symm hre.symm (fun e => ?_) (fun c hc g h1 h2 => ?_) ?_ ?_ ?_ hp
  · rw [Heap.freeList_handOut, if_neg e]
  · rw [hget c.aligned c.nonnull, if_neg (hne c hc), if_neg h1, if_neg h2]
  · refine List.isChain_cons_cons.2 ⟨⟨?_, fun e => ?_⟩, by simp⟩
    · by_cases e : q = 0
      · rw [e, Heap.ptrs_fw_null, Heap.freeList_handOut, if_pos rfl]
      · rw [Heap.ptrs_fw _ e, hget hqa e, if_neg hnq.symm, if_pos ⟨rfl, rfl⟩]
    · rw [Heap.ptrs_bk, hget hra e, if_neg hnr.symm, if_neg (by simp), if_pos ⟨rfl, rfl⟩]
  · intro c hc
    rw [List.nil_append, List.mem_singleton] at hc
    rw [hc, hget b.aligned b.nonnull, if_pos hb]
    rfl
  · intro c hc
    rw [List.mem_singleton] at hc
    rw [hc, hget b.aligned b.nonnull, if_pos hb, hb]
    rfl

theorem represents_take_split (hr : Represents A h (xs ++ n :: ys) live) {b m : Block} (hb : b.addr = n.addr)
    (hm : m.addr = dataStart n.addr + b.size) (hms : m.size = h.get n.addr .size - b.size - SIZEOF_MEMHEADER)
    (hs : 0 < (h.get n.addr .size - b.size - SIZEOF_MEMHEADER).toInt)
    (hp : Packed A.regions (([m] ++ [b] ++ (xs ++ ys ++ live)).map Block.span)) :
    Represents A (kmalloc_take h b.size n.addr) (xs ++ [m] ++ ys) ([b] ++ live) := by
  have hr' : Represents A h (xs ++ [n] ++ ys) ([] ++ live) := by simpa using hr
  have hne := hr.ne_addr
  have hnq := ne_last xs fun c hc => hne c (by simp [hc])
  have hnr := ne_head ys fun c hc => hne c (by simp [hc])
  have hqa := aligned_last xs
  have hra := aligned_head ys
  obtain ⟨hq, hrr⟩ := hr.links
  -- nor is there another header at the address of `m`
  have hmne : ∀ c ∈ b :: (xs ++ ys ++ live), c.addr ≠ m.addr := addr_ne hp
  have hnm : n.addr ≠ m.addr := hb ▸ hmne b (by simp)
  have hmq := ne_last xs fun c hc => hmne c (by simp [hc])
  have hmr := ne_head ys fun c hc => hmne c (by simp [hc])
  rw [kmalloc_take_split n.aligned n.nonnull hra hnr m.aligned hnm hs hq hrr hm.symm, ← hms]
  set q := (xs.map Block.addr).getLastD 0 with hqe
  set r := (ys.map Block.addr).headD 0 with hre
  set h1 := ((h.set m.addr .size m.size).set m.addr .next r).putPrev r m.addr with hh1
  have hprep {c : Word} {g : HdrField} (hc : Aligned c) (hc0 : c ≠ 0) : h1.get c g =
      if c = r ∧ g = .prev then m.addr
      else if c = m.addr ∧ g = .next then r
      else if c = m.addr ∧ g = .size then m.size
      else h.get c g := by
    rw [hh1, Heap.get_putPrev hra hc hc0, Heap.get_set _ _ _ _ m.aligned hc, Heap.get_set _ _ _ _ m.aligned hc]
  have hget {c : Word} {g : HdrField} (hc : Aligned c) (hc0 : c ≠ 0) :=
    Heap.get_handOut h1 b.size (g := g) n.aligned hqa m.aligned hc hc0
  refine hr'.edit hqe.symm hre.symm (fun e => ?_) (fun c hc g h1 h2 => ?_) ?_ ?_ ?_ hp
  · rw [Heap.freeList_handOut, if_neg e, hh1, Heap.freeList_putPrev]
    rfl
  · have hcm : c.addr ≠ m.addr := hmne c (List.mem_cons_of_mem _ hc)
    rw [hget c.aligned c.nonnull, if_neg (hne c hc), if_neg h1, if_neg (fun e => hcm e.1),
      hprep c.aligned c.nonnull, if_neg h2, if_neg (fun e => hcm e.1), if_neg (fun e => hcm e.1)]
  · refine List.isChain_cons_cons.2 ⟨⟨?_, fun _ => ?_⟩, List.isChain_cons_cons.2 ⟨⟨?_, fun e => ?_⟩, by simp⟩⟩
    · by_cases e : q = 0
      · rw [e, Heap.ptrs_fw_null, Heap.freeList_handOut, if_pos rfl]
      · rw [Heap.ptrs_fw _ e, hget hqa e, if_neg hnq.symm, if_pos ⟨rfl, rfl⟩]
    · rw [Heap.ptrs_bk, hget m.aligned m.nonnull, if_neg hnm.symm, if_neg (by simp), if_pos ⟨rfl, rfl⟩]
    · rw [Heap.ptrs_fw _ m.nonnull, hget m.aligned m.nonnull, if_neg hnm.symm, if_neg (fun e => hmq e.1),
        if_neg (by simp), hprep m.aligned m.nonnull, if_neg (by simp), if_pos ⟨rfl, rfl⟩]
    · rw [Heap.ptrs_bk, hget hra e, if_neg hnr.symm, if_neg (by simp), if_neg (fun e => hmr e.1.symm),
        hprep hra e, if_pos ⟨rfl, rfl⟩]
  · intro c hc
    rcases List.mem_cons.1 hc with rfl | hc
    · rw [hget c.aligned c.nonnull, if_neg hnm.symm, if_neg (by simp), if_neg (by simp), hprep c.aligned c.nonnull,
        if_neg (by simp), if_neg (by simp), if_pos ⟨rfl, rfl⟩]
    · rw [List.mem_singleton.1 hc, hget b.aligned b.nonnull, if_pos hb]
      rfl
  · intro c hc
    rw [List.mem_singleton] at hc
    rw [hc, hget b.aligned b.nonnull, if_pos hb, hb]
    rfl

/-- Handing out a node that is large enough. -/
theorem represents_take (hr : Represents A h (xs ++ n :: ys) live) (ha : Aligned amount) (hle : amount ≤ n.size) :
    ∃ rest b, Remainder n amount rest ∧ b.addr = n.addr ∧ b.size = amount ∧
      Represents A (kmalloc_take h amount n.addr) (xs ++ rest ++ ys) (b :: live) := by
  have hr' : Represents A h (xs ++ [n] ++ ys) ([] ++ live) := by simpa using hr
  have hsz : h.get n.addr .size = n.size := hr.size n (by simp)
  have hbelow := hr.below (b := n) (by simp)
  have hle' : amount.toNat ≤ n.size.toNat := hle
  have hrmd := rmdSize_pos (s := n.size) (a := amount) (by omega) hle'
  obtain ⟨b, hb, rfl⟩ : ∃ b : Block, b.addr = n.addr ∧ b.size = amount :=
    ⟨⟨n.addr, amount, n.aligned, ha, n.nonnull⟩, rfl, rfl⟩
  by_cases hs : 0 < (n.size - b.size - SIZEOF_MEMHEADER).toInt
  · have hroom := hrmd.1 hs
    have hsplit : (dataStart n.addr + b.size).toNat = n.addr.toNat + 16 + b.size.toNat := by
      simp only [dataStart, SIZEOF_MEMHEADER]
      bv_omega
    have hrest : (n.size - b.size - SIZEOF_MEMHEADER).toNat = n.size.toNat - b.size.toNat - 16 := by
      simp only [SIZEOF_MEMHEADER]
      bv_omega
    have hal := n.aligned
    have hal' := n.size_aligned
    unfold Aligned at hal hal' ha
    obtain ⟨m, hm, hms⟩ : ∃ m : Block, m.addr = dataStart n.addr + b.size ∧
        m.size = n.size - b.size - SIZEOF_MEMHEADER := by
      refine ⟨⟨_, _, ?_, ?_, ?_⟩, rfl, rfl⟩
      · unfold Aligned; omega
      · unfold Aligned; omega
      · intro e
        have h0 : BitVec.toNat (0 : Word) = 0 := rfl
        rw [e] at hsplit
        omega
    refine ⟨[m], b, .split m hroom hm hms, hb, rfl, represents_take_split hr hb hm (by rw [hsz, hms]) (by rwa [hsz]) ?_⟩
    have hbn : b.span.Within n.span := by
      simp only [Within, Block.span, hb]
      omega
    have hmn : m.span.Within n.span := by
      simp only [Within, Block.span, hm, hms, hsplit, hrest]
      omega
    have hmb : Apart m.span b.span := by
      simp only [Apart, Block.span, hm, hb, hsplit]
      omega
    have hp := hr'.packed_edit
    simp only [List.append_nil, List.singleton_append, List.map_cons] at hp
    exact hp.split hmn hbn hmb
  · refine ⟨[], b, .whole (by rw [hrmd] at hs; omega), hb, rfl, ?_⟩
    exact represents_take_whole hr hb hle' (by rwa [hsz])

/-- Taking a node touches no header but its own, that of what remains of it, and
those next to it in the list. -/
theorem kmalloc_take_same (hr : Represents A h (xs ++ n :: ys) live) (ha : Aligned amount) (hle : amount ≤ n.size)
    {c : Word} {g : HdrField} (hc : Aligned c) (hc0 : c ≠ 0)
    (hout : c.toNat < n.addr.toNat ∨ n.addr.toNat + 16 + n.size.toNat ≤ c.toNat) (hother : ∀ m ∈ xs ++ ys, c ≠ m.addr) :
    (kmalloc_take h amount n.addr).get c g = h.get c g := by
  have hne := hr.ne_addr
  have hnr := ne_head ys fun c hc => hne c (by simp [hc])
  have hqa := aligned_last xs
  have hra := aligned_head ys
  obtain ⟨hq, hrr⟩ := hr.links
  have hsz : h.get n.addr .size = n.size := hr.size n (by simp)
  have hbelow := hr.below (b := n) (by simp)
  have hle' : amount.toNat ≤ n.size.toNat := hle
  have hcn : c ≠ n.addr := by
    rintro rfl
    omega
  have hcq : c ≠ (xs.map Block.addr).getLastD 0 := by
    rcases last_addr xs with e | ⟨d, hd, e⟩
    · rw [e]; exact hc0
    · rw [← e]; exact hother d (by simp [hd])
  have hcr : c ≠ (ys.map Block.addr).headD 0 := by
    rcases head_addr ys with e | ⟨d, hd, e⟩
    · rw [e]; exact hc0
    · rw [← e]; exact hother d (by simp [hd])
  by_cases hs : 0 < (h.get n.addr .size - amount - SIZEOF_MEMHEADER).toInt
  · have hroom := (rmdSize_pos (s := n.size) (a := amount) (by omega) hle').1 (by rwa [hsz] at hs)
    have hsplit : (dataStart n.addr + amount).toNat = n.addr.toNat + 16 + amount.toNat := by
      simp only [dataStart, SIZEOF_MEMHEADER]
      bv_omega
    have hal := n.aligned
    unfold Aligned at hal ha
    have hm : Aligned (dataStart n.addr + amount) := by
      unfold Aligned
      omega
    have hnm : n.addr ≠ dataStart n.addr + amount := by
      intro e
      rw [← e] at hsplit
      omega
    have hcm : c ≠ dataStart n.addr + amount := by
      intro e
      rw [← e] at hsplit
      omega
    rw [kmalloc_take_split n.aligned n.nonnull hra hnr hm hnm hs hq hrr rfl,
      Heap.get_handOut _ amount n.aligned hqa hm hc hc0, if_neg hcn, if_neg fun e => hcq e.1, if_neg fun e => hcm e.1,
      Heap.get_putPrev hra hc hc0, if_neg fun e => hcr e.1, Heap.get_set _ _ _ _ hm hc, if_neg fun e => hcm e.1,
      Heap.get_set _ _ _ _ hm hc, if_neg fun e => hcm e.1]
  · rw [kmalloc_take_whole n.aligned n.nonnull hra hnr hs hq hrr, Heap.get_handOut _ amount n.aligned hqa hra hc hc0,
      if_neg hcn, if_neg fun e => hcq e.1, if_neg fun e => hcr e.1]

/-! ## The call -/

theorem aligned_align16 (x : Word) : Aligned (align16 x) := by
  unfold Aligned align16
  rw [BitVec.toNat_mul]
  rw [show BitVec.toNat (16 : Word) = 16 from rfl]
  omega

/-- `kmalloc` either leaves the heap alone, or takes the first free node that is
large enough for the rounded size. It always returns. -/
theorem kmalloc_cases {free : List Block} (hr : Represents A h free live) (size : Word) :
    (kmalloc h size = some (0, h) ∧ (size.toInt ≤ 0 ∨ ∀ n ∈ free, n.size < align16 size)) ∨
    ∃ xs n ys, free = xs ++ n :: ys ∧ (∀ x ∈ xs, x.size < align16 size) ∧ align16 size ≤ n.size ∧
      kmalloc h size = some (dataStart n.addr, kmalloc_take h (align16 size) n.addr) := by
  by_cases hs : size.toInt ≤ 0
  · exact .inl ⟨by unfold kmalloc; rw [if_pos hs], .inl hs⟩
  have hwalk : kmalloc_walk h (align16 size) WALK_FUEL h.freeList =
      some (((free.find? fun n => align16 size ≤ h.get n.addr .size).map Block.addr).getD 0) := by
    rw [hr.freeList_eq, kmalloc_walk_eq hr.next_chain hr.null_not_mem
      (length_lt_fuel hr.list.nodup.of_cons hr.null_not_mem), List.find?_map]
    rfl
  cases hf : free.find? fun n => align16 size ≤ h.get n.addr .size with
  | none =>
    refine .inl ⟨?_, .inr fun n hn => ?_⟩
    · simp only [kmalloc, if_neg hs, hwalk, hf]
      rfl
    · rw [← hr.size n (by simp [hn])]
      simpa using List.find?_eq_none.1 hf n hn
  | some n =>
    obtain ⟨hn, xs, ys, rfl, hxs⟩ := List.find?_eq_some_iff_append.1 hf
    have hn' : align16 size ≤ n.size := by
      rw [← hr.size n (by simp)]
      simpa using hn
    refine .inr ⟨xs, n, ys, rfl, fun x hx => ?_, hn', ?_⟩
    · rw [← hr.size x (by simp [hx])]
      simpa using hxs x hx
    · simp only [kmalloc, if_neg hs, hwalk, hf, Option.map_some, Option.getD_some, Option.bind_eq_bind,
        Option.bind_some, if_neg n.nonnull]

/-- The heap after the call holds what remains of the node, and one live block more. -/
theorem kmalloc_spec {free : List Block} (hr : Represents A h free live) (size : Word) :
    (kmalloc h size = some (0, h) ∧ (size.toInt ≤ 0 ∨ ∀ n ∈ free, n.size < align16 size)) ∨
    ∃ xs n ys rest b h', free = xs ++ n :: ys ∧ (∀ x ∈ xs, x.size < align16 size) ∧ align16 size ≤ n.size ∧
      Remainder n (align16 size) rest ∧ b.addr = n.addr ∧ b.size = align16 size ∧
      kmalloc h size = some (dataStart b.addr, h') ∧ Represents A h' (xs ++ rest ++ ys) (b :: live) := by
  rcases kmalloc_cases hr size with hk | ⟨xs, n, ys, rfl, hxs, hn, hk⟩
  · exact .inl hk
  · obtain ⟨rest, b, hrest, hb, hbs, hr'⟩ := represents_take hr (aligned_align16 size) hn
    exact .inr ⟨xs, n, ys, rest, b, _, rfl, hxs, hn, hrest, hb, hbs, by rw [hk, hb], hr'⟩

/-- `kmalloc` writes only inside free nodes. -/
theorem kmalloc_same {free : List Block} {size p : Word} {h' : Heap} (hr : Represents A h free live)
    (hk : kmalloc h size = some (p, h')) {c : Word} (g : HdrField) (hc : Aligned c) (hc0 : c ≠ 0)
    (hout : ∀ n ∈ free, c.toNat < n.addr.toNat ∨ n.addr.toNat + 16 + n.size.toNat ≤ c.toNat) :
    h'.get c g = h.get c g := by
  rcases kmalloc_cases hr size with ⟨hk', -⟩ | ⟨xs, n, ys, rfl, -, hn, hk'⟩
  · rw [hk] at hk'
    cases hk'
    rfl
  · rw [hk] at hk'
    cases hk'
    refine kmalloc_take_same hr (aligned_align16 size) hn hc hc0 (hout n (by simp)) fun m hm e => ?_
    have hm' : m ∈ xs ++ n :: ys := by
      simp only [List.mem_append, List.mem_cons] at hm ⊢
      tauto
    have ho := hout m hm'
    rw [e] at ho
    omega

end

end Xeros
