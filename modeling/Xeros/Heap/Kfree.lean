import Xeros.Heap.Kmalloc
/-!
# `kfree`

`kfree` links a block into the list (`represents_insert`), then merges it with
its neighbours. The merge with the node above keeps the back pointers right
only when that node is the last one (`represents_upper`).
-/

namespace Xeros

open DLinks Span

variable {A : Arena} {P : Word → Prop} {h h' : Heap} {xs ys free live : List Block} {b n : Block}

/-! ## The walk -/

/-- The walk ends at a node that is below `hdr`, unless it is the first one, and
that has no successor below `hdr`. -/
theorem kfree_walk_spec (hdr : Word) {a : Word} {l : List Word} {n : Nat}
    (hc : (a :: l ++ [0]).IsChain fun x y => h.get x .next = y) (h0 : 0 ∉ l) (hn : l.length < n) :
    ∃ us f vs, a :: l = us ++ f :: vs ∧ kfree_walk h hdr n a = some f ∧ (∀ x ∈ (us ++ [f]).tail, x < hdr) ∧
      ∀ y ∈ vs.head?, hdr ≤ y := by
  induction l generalizing a n with
  | nil =>
    obtain ⟨n, rfl⟩ : ∃ m, n = m + 1 := ⟨n - 1, by omega⟩
    have ha : h.get a .next = 0 := by simpa using hc
    exact ⟨[], a, [], rfl, by rw [kfree_walk, ha, if_neg (by simp)], by simp, by simp⟩
  | cons c l ih =>
    obtain ⟨n, rfl⟩ : ∃ m, n = m + 1 := ⟨n - 1, by omega⟩
    simp only [List.mem_cons, not_or] at h0
    simp only [List.length_cons] at hn
    rw [List.cons_append, List.cons_append, List.isChain_cons_cons] at hc
    obtain ⟨hac, hc⟩ := hc
    rw [kfree_walk, hac]
    by_cases hlt : c < hdr
    · obtain ⟨us, f, vs, e, hw, hus, hvs⟩ := ih hc h0.2 (n := n) (by omega)
      refine ⟨a :: us, f, vs, by rw [e]; rfl, by rw [if_pos ⟨Ne.symm h0.1, hlt⟩, hw], ?_, hvs⟩
      intro x hx
      have hx' : x ∈ us ++ [f] := hx
      cases us with
      | nil =>
        cases e
        rw [List.nil_append, List.mem_singleton] at hx'
        rwa [hx']
      | cons u us =>
        cases e
        rcases List.mem_cons.1 hx' with rfl | hx'
        · exact hlt
        · exact hus x hx'
    · refine ⟨[], a, c :: l, rfl, by rw [if_neg (fun e => hlt e.2)], by simp, ?_⟩
      intro y hy
      cases hy
      exact BitVec.not_lt.1 hlt

/-! ## Linking a block in -/

/-- `h'` is `h` with the header `b` linked in between `q` and `r`. -/
structure LinkedIn (P : Word → Prop) (h h' : Heap) (q b r : Word) : Prop where
  freeList : h'.freeList = if q = 0 then b else h.freeList
  get : ∀ c g, P c → c ≠ 0 → h'.get c g =
    if c = b then
      match g with
      | .next => r
      | .prev => q
      | .sanityCheck => 0
      | .size => h.get b .size
    else if c = q ∧ g = .next then b
    else if c = r ∧ g = .prev then b
    else h.get c g

/-- Linking a block in touches its own header and the two next to it. -/
theorem LinkedIn.same {q r : Word} (hl : LinkedIn Aligned h h' q b.addr r) (hqe : (xs.map Block.addr).getLastD 0 = q)
    (hre : (ys.map Block.addr).headD 0 = r) : h.SameBut (xs ++ [b] ++ ys) h' := by
  intro c g hc hc0 hout
  have hcq : c ≠ q := by
    rw [← hqe]
    rcases last_addr xs with e | ⟨d, hd, e⟩
    · rw [e]; exact hc0
    · rw [← e]; exact hout d (by simp [hd])
  have hcr : c ≠ r := by
    rw [← hre]
    rcases head_addr ys with e | ⟨d, hd, e⟩
    · rw [e]; exact hc0
    · rw [← e]; exact hout d (by simp [hd])
  rw [hl.get c g hc hc0, if_neg (hout b (by simp)), if_neg fun e => hcq e.1, if_neg fun e => hcr e.1]

theorem represents_insert (hr : Represents A h (xs ++ ys) (b :: live)) {q r : Word}
    (hqe : (xs.map Block.addr).getLastD 0 = q) (hre : (ys.map Block.addr).headD 0 = r)
    (hl : LinkedIn Aligned h h' q b.addr r) :
    Represents A h' (xs ++ [b] ++ ys) live := by
  have hr' : Represents A h (xs ++ [] ++ ys) ([b] ++ live) := by simpa using hr
  have hp := hr'.packed_edit
  have hne : ∀ c ∈ xs ++ ys ++ live, c.addr ≠ b.addr := addr_ne hp
  have hbq : b.addr ≠ q := hqe ▸ ne_last xs fun c hc => hne c (by simp [hc])
  have hbr : b.addr ≠ r := hre ▸ ne_head ys fun c hc => hne c (by simp [hc])
  have hqa : Aligned q := hqe ▸ aligned_last xs
  have hra : Aligned r := hre ▸ aligned_head ys
  rw [← List.nil_append live]
  refine hr'.edit hqe hre (fun e => ?_) (fun c hc g h1 h2 => ?_) ?_ ?_ (by simp) hp
  · rw [hl.freeList, if_neg e]
  · rw [hl.get _ _ c.aligned c.nonnull, if_neg (hne c hc), if_neg h1, if_neg h2]
  · refine List.isChain_cons_cons.2 ⟨⟨?_, fun _ => ?_⟩, List.isChain_cons_cons.2 ⟨⟨?_, fun e => ?_⟩, by simp⟩⟩
    · by_cases e : q = 0
      · rw [e, Heap.ptrs_fw_null, hl.freeList, if_pos e]
      · rw [Heap.ptrs_fw _ e, hl.get _ _ hqa e, if_neg hbq.symm, if_pos ⟨rfl, rfl⟩]
    · rw [Heap.ptrs_bk, hl.get _ _ b.aligned b.nonnull, if_pos rfl]
    · rw [Heap.ptrs_fw _ b.nonnull, hl.get _ _ b.aligned b.nonnull, if_pos rfl]
    · rw [Heap.ptrs_bk, hl.get _ _ hra e, if_neg hbr.symm, if_neg (by simp), if_pos ⟨rfl, rfl⟩]
  · intro c hc
    rw [List.mem_singleton.1 hc, hl.get _ _ b.aligned b.nonnull, if_pos rfl]
    exact hr.size b (by simp)

/-- The header of a block that is about to be linked in. -/
def Heap.unmark (h : Heap) (hdr : Word) : Heap :=
  ((h.set hdr .next 0).set hdr .prev 0).set hdr .sanityCheck 0

theorem Heap.get_unmark (hP : Headers P) {c hdr : Word} {g : HdrField} (hh : P hdr) (hc : P c) :
    (h.unmark hdr).get c g = if c = hdr ∧ g ≠ .size then 0 else h.get c g := by
  unfold unmark
  rw [get_set_of hP _ _ _ _ hh hc, get_set_of hP _ _ _ _ hh hc, get_set_of hP _ _ _ _ hh hc]
  cases g <;> by_cases e : c = hdr <;> simp [e]

theorem linkedIn_front (hP : Headers P) {b : Word} (hbP : P b) (ha : P h.freeList) (hb : b ≠ h.freeList) :
    LinkedIn P h { ((h.unmark b).set h.freeList .prev b).set b .next h.freeList with freeList := b } 0 b h.freeList := by
  refine ⟨rfl, fun c g hc hc0 => ?_⟩
  change (((h.unmark b).set h.freeList .prev b).set b .next h.freeList).get c g = _
  rw [Heap.get_set_of hP _ _ _ _ hbP hc, Heap.get_set_of hP _ _ _ _ ha hc, Heap.get_unmark hP hbP hc]
  by_cases e : c = b
  · cases g <;> simp [e, hb]
  · simp only [e, false_and, if_false, if_neg (fun e => hc0 e.1 : ¬(c = 0 ∧ g = .next))]

theorem linkedIn_behind (hP : Headers P) {h2 : Heap} {b f r : Word} (hbP : P b) (hf : P f) (hf0 : f ≠ 0) (hr : r ≠ 0 → P r)
    (hfb : f ≠ b) (hrb : r ≠ b)
    (h2r : h2 = if r ≠ 0 then ((h.unmark b).set b .next r).set r .prev b else h.unmark b) :
    LinkedIn P h ((h2.set f .next b).set b .prev f) f b r := by
  have hget {c : Word} {g : HdrField} (hc : P c) (hc0 : c ≠ 0) : h2.get c g =
      if c = r ∧ g = .prev then b
      else if c = b ∧ g = .next then r
      else if c = b ∧ g ≠ .size then 0
      else h.get c g := by
    rw [h2r]
    split
    · next e =>
      rw [Heap.get_set_of hP _ _ _ _ (hr e) hc, Heap.get_set_of hP _ _ _ _ hbP hc, Heap.get_unmark hP hbP hc]
    · next e =>
      rw [not_not] at e
      rw [Heap.get_unmark hP hbP hc, if_neg (fun e' => hc0 (e'.1.trans e) : ¬(c = r ∧ g = .prev))]
      by_cases e' : c = b ∧ g = .next
      · rw [if_pos e', if_pos ⟨e'.1, by simp [e'.2]⟩, e]
      · rw [if_neg e']
  refine ⟨?_, fun c g hc hc0 => ?_⟩
  · rw [if_neg hf0, Heap.set_freeList, Heap.set_freeList, h2r]
    split <;> rfl
  · rw [Heap.get_set_of hP _ _ _ _ hbP hc, Heap.get_set_of hP _ _ _ _ hf hc, hget hc hc0]
    by_cases e : c = b
    · cases g <;> simp [e, hfb.symm, hrb.symm]
    · simp only [e, false_and, if_false]

/-- `kfree_insert` links the header in behind lower ones and in front of a higher one. -/
theorem kfree_insert_linked (hP : Headers P) {b : Word} {l : List Word} (hb : P b) (hb0 : b ≠ 0) (hl : ∀ a ∈ l, P a)
    (hne : b ∉ l) (h0 : 0 ∉ l) (hnd : l.Nodup) (hhead : h.freeList = l.headD 0)
    (hc : (l ++ [0]).IsChain fun x y => h.get x .next = y) :
    ∃ xs ys h', l = xs ++ ys ∧ (∀ x ∈ xs, x < b) ∧ (∀ y ∈ ys.head?, b < y) ∧
      kfree_insert (h.unmark b) b = some h' ∧ LinkedIn P h h' (xs.getLastD 0) b (ys.headD 0) := by
  have hother : ∀ x ∈ l, x ≠ b := by
    rintro x hx rfl
    exact hne hx
  have hfl : (h.unmark b).freeList = h.freeList := rfl
  unfold kfree_insert
  simp only [hfl]
  cases l with
  | nil =>
    have h0 : h.freeList = 0 := hhead
    refine ⟨[], [], _, rfl, by simp, by simp, by rw [if_pos h0], ⟨rfl, fun c g hc hc0 => ?_⟩⟩
    change (h.unmark b).get c g = _
    rw [Heap.get_unmark hP hb hc]
    by_cases e : c = b
    · cases g <;> simp [e]
    · simp only [e, false_and, if_false, List.getLastD_nil, List.headD_nil, hc0]
  | cons a l =>
    have ha : h.freeList = a := hhead
    have hab : a ≠ b := hother a List.mem_cons_self
    have ha0 : h.freeList ≠ 0 := by
      rw [ha]
      rintro rfl
      exact h0 List.mem_cons_self
    by_cases hlt : b < h.freeList
    · have hin := linkedIn_front hP hb (ha ▸ hl a List.mem_cons_self) (ha ▸ hab.symm)
      refine ⟨[], a :: l, _, rfl, by simp, ?_, by rw [if_neg ha0, if_pos hlt], ?_⟩
      · rintro y ⟨⟩
        exact ha ▸ hlt
      · rw [List.headD_cons, ← ha]
        exact hin
    · have hc' : (a :: l ++ [0]).IsChain fun x y => (h.unmark b).get x .next = y := by
        refine isChain_congr hc fun x hx y _ hxy => ?_
        rw [List.dropLast_concat] at hx
        rw [Heap.get_unmark hP hb (hl x hx), if_neg (fun e => hother x hx e.1), hxy]
      have h0l : 0 ∉ l := fun h0' => h0 (List.mem_cons_of_mem _ h0')
      obtain ⟨us, f, vs, e, hw, hus, hvs⟩ := kfree_walk_spec b hc' h0l (length_lt_fuel hnd.of_cons h0l)
      have hf : f ∈ a :: l := by
        rw [e]
        simp
      have hfb : f ≠ b := hother f hf
      have hf0 : f ≠ 0 := by
        rintro rfl
        exact h0 hf
      have hr : vs.headD 0 ≠ 0 → vs.headD 0 ∈ a :: l := by
        intro hr0
        rw [e]
        rcases headD_mem 0 vs with e' | hr
        · exact absurd e' hr0
        · exact List.mem_append_right _ (List.mem_cons_of_mem _ hr)
      have hrb : vs.headD 0 ≠ b := by
        by_cases hr0 : vs.headD 0 = 0
        · rw [hr0]
          exact hb0.symm
        · exact hother _ (hr hr0)
      have hnext : h.get f .next = vs.headD 0 := by
        obtain ⟨ws, hws⟩ := eq_cons_headD 0 vs
        rw [e, List.append_assoc, List.cons_append, hws, List.isChain_split] at hc
        exact (List.isChain_cons_cons.1 hc.2).1
      obtain ⟨h', hin, hh'⟩ : ∃ h', LinkedIn P h h' f b (vs.headD 0) ∧ h' = _ :=
        ⟨_, linkedIn_behind hP hb (hl f hf) hf0 (fun e' => hl _ (hr e')) hfb hrb rfl, rfl⟩
      have e1 : (h.unmark b).get f .next = vs.headD 0 := by
        rw [Heap.get_unmark hP hb (hl f hf), if_neg (fun e' => hfb e'.1), hnext]
      have e2 (v : Word) : ((h.unmark b).set b .next v).get f .next = vs.headD 0 := by
        rw [Heap.get_set_of hP _ _ _ _ hb (hl f hf), if_neg (fun e' => hfb e'.1), e1]
      refine ⟨us ++ [f], vs, h', by rw [e]; simp, ?_, ?_, ?_, by rwa [List.getLastD_concat]⟩
      · -- the first node is not above the header either
        have hfirst : a < b := by
          rw [ha] at hlt
          bv_omega
        intro x hx
        cases us with
        | nil =>
          cases e
          rw [List.mem_singleton.1 hx]
          exact hfirst
        | cons u us =>
          cases e
          rcases List.mem_cons.1 hx with rfl | hx
          · exact hfirst
          · exact hus x hx
      · intro y hy
        have hle := hvs y hy
        have hyb : y ≠ b := hother y (by rw [e]; simp [List.mem_of_mem_head? hy])
        bv_omega
      · rw [← ha] at hw
        rw [hh']
        simp only [if_neg ha0, if_neg hlt, hw, Option.bind_eq_bind, Option.bind_some, e1, e2]

/-- `kfree_insert` links the block in somewhere. -/
theorem kfree_insert_spec (hr : Represents A h free (b :: live)) :
    ∃ xs ys h', free = xs ++ ys ∧ kfree_insert (h.unmark b.addr) b.addr = some h' ∧
      Represents A h' (xs ++ [b] ++ ys) live ∧ h.SameBut (xs ++ [b] ++ ys) h' := by
  have hne : b.addr ∉ free.map Block.addr := by
    intro hm
    obtain ⟨c, hc, e⟩ := List.mem_map.1 hm
    have hr' : Represents A h ([] ++ [] ++ free) ([b] ++ live) := by simpa using hr
    exact addr_ne hr'.packed_edit c (by simp [hc]) e
  have hal : ∀ a ∈ free.map Block.addr, Aligned a := by
    intro a ha
    obtain ⟨c, -, rfl⟩ := List.mem_map.1 ha
    exact c.aligned
  obtain ⟨xs, ys, h', e, -, -, hins, hin⟩ := kfree_insert_linked headers_aligned b.aligned b.nonnull hal hne hr.null_not_mem
    hr.list.nodup.of_cons hr.freeList_eq hr.next_chain
  obtain ⟨us, vs, rfl, rfl, rfl⟩ := List.map_eq_append_iff.1 e
  exact ⟨us, vs, h', rfl, hins, represents_insert hr rfl rfl hin, hin.same rfl rfl⟩

/-! ## Merging neighbours -/

/-- `h'` is `h` with the node behind `a` absorbed: `a` has size `size` and the next node is `r`. -/
structure Merged (P : Word → Prop) (h h' : Heap) (a size r : Word) : Prop where
  freeList : h'.freeList = h.freeList
  get : ∀ c g, P c → c ≠ 0 → h'.get c g =
    if c = a ∧ g = .size then size
    else if c = a ∧ g = .next then r
    else if c = r ∧ g = .prev then a
    else h.get c g

/-- A merge touches the header of the merged node and that of the next one. -/
theorem Merged.same {a r size : Word} (hm : Merged Aligned h h' a size r) (hre : (ys.map Block.addr).headD 0 = r)
    {l : List Block} (hl : ∀ d ∈ ys, d ∈ l) (ha : ∃ d ∈ l, d.addr = a) : h.SameBut l h' := by
  intro c g hc hc0 hout
  obtain ⟨d, hd, hda⟩ := ha
  have hca : c ≠ a := hda ▸ hout d hd
  have hcr : c ≠ r := by
    rw [← hre]
    rcases head_addr ys with e | ⟨e, he, hee⟩
    · rw [e]; exact hc0
    · rw [← hee]; exact hout e (hl e he)
  rw [hm.get c g hc hc0, if_neg fun e => hca e.1, if_neg fun e => hca e.1, if_neg fun e => hcr e.1]

/-- Two neighbours form one block. -/
theorem exists_join {R : List Span} {l : List Block} {a b : Block} (hR : Separate R)
    (hp : Packed R ((a :: b :: l).map Block.span)) (hb : b.addr.toNat + 16 + b.size.toNat ≤ 0x400000)
    (e : dataStart a.addr + a.size = b.addr) (ha : a.addr.toNat + 16 + a.size.toNat ≤ 0x400000) :
    ∃ c : Block, c.addr = a.addr ∧ c.size = a.size + (b.size + SIZEOF_MEMHEADER) ∧
      Packed R ((c :: l).map Block.span) := by
  have hab : a.span.hi = b.span.lo := by
    simp only [Block.span, ← e, dataStart, SIZEOF_MEMHEADER]
    bv_omega
  have hsize : (a.size + (b.size + SIZEOF_MEMHEADER)).toNat = a.size.toNat + b.size.toNat + 16 := by
    simp only [SIZEOF_MEMHEADER]
    bv_omega
  have h1 := a.size_aligned
  have h2 := b.size_aligned
  unfold Aligned at h1 h2
  refine ⟨⟨a.addr, a.size + (b.size + SIZEOF_MEMHEADER), a.aligned, ?_, a.nonnull⟩, rfl, rfl, ?_⟩
  · unfold Aligned
    omega
  · rw [List.map_cons]
    refine (hp.merge hR hab).shrink ⟨Nat.le_refl _, ?_⟩
    simp only [Block.span] at hab
    simp only [Block.span, Span.join, hsize]
    omega

theorem represents_merge {a c : Block} (hr : Represents A h (xs ++ [a, b] ++ ys) live) (hc : c.addr = a.addr)
    (hm : Merged Aligned h h' a.addr c.size ((ys.map Block.addr).headD 0))
    (hp : Packed A.regions ((c :: (xs ++ ys ++ live)).map Block.span)) :
    Represents A h' (xs ++ [c] ++ ys) live := by
  have hr' : Represents A h (xs ++ a :: (b :: ys)) live := by simpa using hr
  have hne : ∀ d ∈ xs ++ (b :: ys) ++ live, d.addr ≠ a.addr := hr'.ne_addr
  have haq := ne_last xs fun d hd => hne d (by simp [hd])
  have har := ne_head ys fun d hd => hne d (by simp [hd])
  have hqa := aligned_last xs
  have hra := aligned_head ys
  obtain ⟨hprev, -⟩ := hr'.links
  have hfw : h.ptrs.fw ((xs.map Block.addr).getLastD 0) = a.addr := by
    have hl := hr'.list
    rw [List.map_append, List.map_cons] at hl
    exact hl.at_node.2.1
  set q := (xs.map Block.addr).getLastD 0 with hqe
  set r := (ys.map Block.addr).headD 0 with hre
  rw [← List.nil_append live] at hr ⊢
  refine hr.edit hqe.symm hre.symm (fun _ => hm.freeList) (fun d hd g h1 h2 => ?_) ?_ ?_ (by simp) (by simpa using hp)
  · have hda : d.addr ≠ a.addr := by
      refine hne d ?_
      simp only [List.mem_append, List.mem_cons] at hd ⊢
      tauto
    rw [hm.get _ _ d.aligned d.nonnull, if_neg (fun e => hda e.1), if_neg (fun e => hda e.1), if_neg h2]
  · refine List.isChain_cons_cons.2 ⟨⟨?_, fun _ => ?_⟩, List.isChain_cons_cons.2 ⟨⟨?_, fun e => ?_⟩, by simp⟩⟩
    · by_cases e : q = 0
      · rw [e, Heap.ptrs_fw_null] at hfw ⊢
        rw [hm.freeList, hfw, hc]
      · rw [Heap.ptrs_fw _ e] at hfw ⊢
        rw [hm.get _ _ hqa e, if_neg (by simp), if_neg (fun e => haq e.1.symm), if_neg (by simp), hfw, hc]
    · rw [Heap.ptrs_bk, hm.get _ _ c.aligned c.nonnull, if_neg (by simp), if_neg (by simp), hc,
        if_neg (fun e => har e.1), hprev]
    · rw [Heap.ptrs_fw _ c.nonnull, hm.get _ _ c.aligned c.nonnull, if_neg (by simp), if_pos ⟨hc, rfl⟩]
    · rw [Heap.ptrs_bk, hm.get _ _ hra e, if_neg (by simp), if_neg (by simp), if_pos ⟨rfl, rfl⟩, hc]
  · intro d hd
    have hdc : d = c := List.mem_singleton.1 hd
    rw [hdc, hm.get _ _ c.aligned c.nonnull, if_pos ⟨hc, rfl⟩]

theorem coalesce_lower_skip {hdr : Word}
    (hm : ¬(h.get hdr .prev ≠ 0 ∧ dataStart (h.get hdr .prev) + h.get (h.get hdr .prev) .size = hdr)) :
    coalesce_lower h hdr = (h, hdr) := if_neg hm

theorem coalesce_lower_merged (hP : Headers P) {hdr a r : Word} (hh : P hdr) (hh0 : hdr ≠ 0) (ha : P a)
    (hr : r ≠ 0 → P r) (hha : hdr ≠ a) (hhr : hdr ≠ r) (hprev : h.get hdr .prev = a) (hnext : h.get hdr .next = r)
    (ha0 : a ≠ 0) (hm : dataStart a + h.get a .size = hdr) :
    ∃ h', coalesce_lower h hdr = (h', a) ∧
      Merged P h h' a (h.get a .size + (h.get hdr .size + SIZEOF_MEMHEADER)) r := by
  set size := h.get a .size + (h.get hdr .size + SIZEOF_MEMHEADER) with hsize
  have e1 : (h.set a .size size).get hdr .next = r := by
    rw [Heap.get_set_of hP _ _ _ _ ha hh, if_neg (fun e => hha e.1), hnext]
  have e2 (g : HdrField) : ((h.set a .size size).set a .next r).get hdr g = h.get hdr g := by
    rw [Heap.get_set_of hP _ _ _ _ ha hh, if_neg (fun e => hha e.1), Heap.get_set_of hP _ _ _ _ ha hh,
      if_neg (fun e => hha e.1)]
  have e3 : (((h.set a .size size).set a .next r).putPrev r a).get hdr .prev = a := by
    rw [Heap.get_putPrev_of hP hr hh hh0, if_neg (fun e => hhr e.1), e2, hprev]
  refine ⟨((h.set a .size size).set a .next r).putPrev r a, ?_, ?_, fun c g hc hc0 => ?_⟩
  · unfold coalesce_lower
    simp only [hprev, if_pos (And.intro ha0 hm), ← hsize, e1, e2, hnext]
    exact Prod.ext rfl e3
  · rw [Heap.freeList_putPrev]
    rfl
  · rw [Heap.get_putPrev_of hP hr hc hc0, Heap.get_set_of hP _ _ _ _ ha hc, Heap.get_set_of hP _ _ _ _ ha hc]
    by_cases e : c = a <;> cases g <;> simp [e]

/-- The merge with the node below keeps the list right in both directions. -/
theorem represents_lower (hr : Represents A h (xs ++ [b] ++ ys) live) :
    ∃ us c h', coalesce_lower h b.addr = (h', c.addr) ∧ Represents A h' (us ++ [c] ++ ys) live ∧
      dataStart c.addr + c.size = dataStart b.addr + b.size ∧ h.SameBut (xs ++ [b] ++ ys) h' ∧
      ∀ n ∈ us ++ [c] ++ ys, ∃ m ∈ xs ++ [b] ++ ys, m.addr = n.addr := by
  have hr' : Represents A h (xs ++ b :: ys) live := by simpa using hr
  obtain ⟨hprev, hnext⟩ := hr'.links
  by_cases hm : h.get b.addr .prev ≠ 0 ∧ dataStart (h.get b.addr .prev) + h.get (h.get b.addr .prev) .size = b.addr
  swap
  · exact ⟨xs, b, h, coalesce_lower_skip hm, hr, rfl, fun _ _ _ _ _ => rfl, fun n hn => ⟨n, hn, rfl⟩⟩
  -- the node below is the last of `xs`
  obtain ⟨us, a, rfl⟩ : ∃ us a, xs = us ++ [a] := by
    rcases List.eq_nil_or_concat xs with rfl | ⟨us, a, rfl⟩
    · exact absurd hprev hm.1
    · exact ⟨us, a, by simp⟩
  rw [List.map_append, List.map_singleton, List.getLastD_concat] at hprev
  have hsa : h.get a.addr .size = a.size := hr.size a (by simp)
  have hsb : h.get b.addr .size = b.size := hr.size b (by simp)
  rw [hprev, hsa] at hm
  have hr2 : Represents A h (us ++ [a, b] ++ ys) ([] ++ live) := by simpa using hr
  have hp := hr2.packed_edit
  simp only [List.append_nil, List.cons_append, List.nil_append] at hp
  have hab : b.addr ≠ a.addr := addr_ne hp b (by simp)
  have hbr := ne_head ys fun c hc => hr'.ne_addr c (by simp [hc])
  have hb := hr.below (b := b) (by simp)
  obtain ⟨c, hc, hcs, hpc⟩ := exists_join A.separate hp hb hm.2 (hr.below (by simp))
  obtain ⟨h', hco, hme⟩ := coalesce_lower_merged headers_aligned b.aligned b.nonnull a.aligned
    (fun _ => aligned_head ys) hab hbr hprev hnext
    hm.1 (by rw [hsa, hm.2])
  rw [hsa, hsb, ← hcs] at hme
  refine ⟨us, c, h', by rw [hco, hc], represents_merge hr2 hc hme hpc, ?_, ?_, fun n hn => ?_⟩
  · rw [hc, hcs, ← hm.2]
    simp only [dataStart, SIZEOF_MEMHEADER]
    bv_omega
  · exact hme.same rfl (fun d hd => by simp [hd]) ⟨a, by simp, rfl⟩
  · simp only [List.mem_append, List.mem_singleton] at hn
    rcases hn with (hn | rfl) | hn
    · exact ⟨n, by simp [hn], rfl⟩
    · exact ⟨a, by simp, hc.symm⟩
    · exact ⟨n, by simp [hn], rfl⟩

theorem coalesce_upper_skip {hdr : Word}
    (hm : ¬(h.get hdr .next ≠ 0 ∧ dataStart hdr + h.get hdr .size = h.get hdr .next)) :
    coalesce_upper h hdr = h := if_neg hm

/-- When the absorbed node was the last one there is no back link to fix up. -/
theorem coalesce_upper_merged {hdr n : Word} (hh : Aligned hdr) (hn : Aligned n) (hhn : n ≠ hdr)
    (hnext : h.get hdr .next = n) (hn0 : n ≠ 0) (hlast : h.get n .next = 0) (hm : dataStart hdr + h.get hdr .size = n) :
    Merged Aligned h (coalesce_upper h hdr) hdr (h.get hdr .size + (h.get n .size + SIZEOF_MEMHEADER)) 0 := by
  set size := h.get hdr .size + (h.get n .size + SIZEOF_MEMHEADER) with hsize
  have e1 : (h.set hdr .size size).get n .next = 0 := by
    rw [Heap.get_set _ _ _ _ hh hn, if_neg (fun e => hhn e.1), hlast]
  have e2 : ((h.set hdr .size size).set hdr .next 0).get hdr .next = 0 := by
    rw [Heap.get_set _ _ _ _ hh hh, if_pos ⟨rfl, rfl⟩]
  have hco : coalesce_upper h hdr = (h.set hdr .size size).set hdr .next 0 := by
    unfold coalesce_upper
    simp only [hnext, if_pos (And.intro hn0 hm), ← hsize, e1, e2]
    exact if_neg fun e => e.1 rfl
  rw [hco]
  refine ⟨rfl, fun c g hc hc0 => ?_⟩
  rw [Heap.get_set _ _ _ _ hh hc, Heap.get_set _ _ _ _ hh hc, if_neg (fun e => hc0 e.1 : ¬(c = 0 ∧ g = .prev))]
  by_cases e : c = hdr <;> cases g <;> simp [e]

/-- The merge with the node above keeps the list right in both directions when
that node is the last one. -/
theorem represents_upper (hr : Represents A h (xs ++ [b] ++ ys) live)
    (hlast : ∀ n vs, ys = n :: vs → n.addr = dataStart b.addr + b.size → vs = []) :
    (∃ c zs, Represents A (coalesce_upper h b.addr) (xs ++ [c] ++ zs) live) ∧
      h.SameBut (xs ++ [b] ++ ys) (coalesce_upper h b.addr) := by
  have hr' : Represents A h (xs ++ b :: ys) live := by simpa using hr
  obtain ⟨-, hnext⟩ := hr'.links
  have hsb : h.get b.addr .size = b.size := hr.size b (by simp)
  by_cases hm : h.get b.addr .next ≠ 0 ∧ dataStart b.addr + h.get b.addr .size = h.get b.addr .next
  swap
  · rw [coalesce_upper_skip hm]
    exact ⟨⟨b, ys, hr⟩, fun _ _ _ _ _ => rfl⟩
  obtain ⟨n, ys, rfl⟩ : ∃ n vs, ys = n :: vs := by
    cases ys with
    | nil => exact absurd hnext hm.1
    | cons n vs => exact ⟨n, vs, rfl⟩
  rw [List.map_cons, List.headD_cons] at hnext
  have hsn : h.get n.addr .size = n.size := hr.size n (by simp)
  rw [hnext, hsb] at hm
  -- nothing is behind the absorbed node
  obtain rfl := hlast n ys rfl hm.2.symm
  have hr3 : Represents A h ((xs ++ [b]) ++ [n]) live := by simpa using hr
  obtain ⟨-, hn0⟩ := hr3.links
  have hr2 : Represents A h (xs ++ [b, n] ++ []) ([] ++ live) := by simpa using hr
  have hp := hr2.packed_edit
  simp only [List.append_nil, List.cons_append, List.nil_append] at hp
  obtain ⟨c, hc, hcs, hpc⟩ := exists_join A.separate hp (hr.below (by simp)) hm.2 (hr.below (by simp))
  have hme := coalesce_upper_merged b.aligned n.aligned (addr_ne hp n (by simp)) hnext hm.1 hn0 (by rw [hsb, hm.2])
  rw [hsb, hsn, ← hcs] at hme
  refine ⟨⟨c, [], represents_merge hr2 hc hme (by simpa using hpc)⟩, ?_⟩
  have hnil : (([] : List Block).map Block.addr).headD 0 = 0 := rfl
  exact hme.same hnil (by simp) ⟨b, by simp, rfl⟩

/-! ## The call -/

theorem Represents.perm {live' : List Block} (hr : Represents A h free live) (hp : live.Perm live') :
    Represents A h free live' := by
  have hm : ∀ c ∈ free ++ live', c ∈ free ++ live := fun c hc => by simpa [hp.mem_iff] using hc
  refine ⟨hr.list, fun c hc => hr.size c (hm c hc), fun c hc => hr.mark c (hp.mem_iff.2 hc), ?_⟩
  exact hr.packed.perm ((hp.append_left free).map _)

/-- `kfree` of a live block returns it to the free list, unless the block is
directly followed by a free node that is not the last one. It touches no header
but those of the block and of free nodes. -/
theorem kfree_spec (hr : Represents A h free (b :: live))
    (hlast : ∀ n ∈ free, n.addr = dataStart b.addr + b.size → h.get n.addr .next = 0) :
    ∃ free' h', kfree h (dataStart b.addr) = some h' ∧ Represents A h' free' live ∧ h.SameBut (b :: free) h' := by
  have hhdr : dataStart b.addr - SIZEOF_MEMHEADER = b.addr := by
    simp only [dataStart, SIZEOF_MEMHEADER]
    bv_omega
  obtain ⟨xs, ys, h1, rfl, hins, hr1, hs1⟩ := kfree_insert_spec hr
  obtain ⟨us, c, h2, hlow, hr2, hend, hs2, haddr⟩ := represents_lower hr1
  obtain ⟨⟨d, zs, hr3⟩, hs3⟩ := represents_upper hr2 fun n vs hys he => by
    subst hys
    have hn0 := hlast n (by simp) (he.trans hend)
    have hnext := hr.links.2.symm.trans hn0
    cases vs with
    | nil => rfl
    | cons m vs => exact absurd hnext m.nonnull
  have hmem : ∀ n ∈ xs ++ [b] ++ ys, n ∈ b :: (xs ++ ys) := by
    intro n hn
    simp only [List.mem_append, List.mem_cons, List.not_mem_nil, or_false] at hn ⊢
    tauto
  have hsame : h.SameBut (b :: (xs ++ ys)) (coalesce_upper h2 c.addr) := by
    have h12 : h.SameBut (b :: (xs ++ ys)) h2 := hs1.trans hs2 hmem fun n hn => ⟨n, hmem n hn, rfl⟩
    refine h12.trans hs3 (fun n hn => hn) fun n hn => ?_
    obtain ⟨m, hm, e⟩ := haddr n hn
    exact ⟨m, hmem m hm, e⟩
  refine ⟨_, _, ?_, hr3, hsame⟩
  unfold kfree
  rw [hhdr, if_pos (hr.mark b (by simp))]
  change (kfree_insert (h.unmark b.addr) b.addr).bind _ = _
  rw [hins, Option.bind_some, hlow]

end Xeros
