import Xeros.Heap.RoundTrip
import Xeros.PidMap.Balance
import Xeros.PidMap.Search
import Xeros.PidMap.Table
import Xeros.PidMap.Turns
import Xeros.Procs.RoundRobin
import Mathlib.Data.Fintype.Option
/-!
# Creation

`create` installs one process or changes nothing, with four exceptions: the
table is full and the stack block does not come back whole, there is no room
for the node of the pid map (`abort`), the new pid is the number of `SYSERR`,
or the insertion turns a subtree of the map to the right
(`create_all_or_nothing_iff`).
-/

namespace Xeros

open Assoc DLinks Span TreeNode

/-! ## The next pid -/

section
variable {t : TreeNode} {pid : Idx → Word} {state : Idx → PState}

theorem Agree.length_le (ha : Agree t pid state) : t.entries.length ≤ MAX_NUM_PROCESS := by
  have hsub : t.entries ⊆ (List.finRange MAX_NUM_PROCESS).map fun i => (pid i, pcbIndex i) := by
    rintro ⟨q, v⟩ hm
    obtain ⟨i, -, rfl, rfl⟩ := (ha.entries q v).1 hm
    exact List.mem_map.2 ⟨i, List.mem_finRange i, rfl⟩
  have hle := ((entries_nodup ha.ordered).subperm hsub).length_le
  rwa [List.length_map, List.length_finRange] at hle

/-- Of 258 pids in a row one is not taken. -/
theorem exists_unused (ha : Agree t pid state) (start : Word) : ∃ j < 258, ¬Taken t (start + BitVec.ofNat 32 j) := by
  by_contra hno
  simp only [not_exists, not_and, not_not] at hno
  have h1 := length_le_of_taken ha.ordered (n := 258) (by omega) hno
  have h2 := ha.length_le
  exact absurd (Nat.le_trans h1 (Nat.succ_le_succ h2)) (by decide)

theorem getNextPid_first (ha : Agree t pid state) (start : Word) :
    ∃ r, getNextPid_loop t PID_FUEL start = some r ∧ FirstUnused t start r := by
  obtain ⟨j, -, hj⟩ := exists_unused ha start
  obtain ⟨r, hr⟩ := exists_firstUnused start hj
  refine ⟨r, ?_, hr⟩
  rw [getNextPid_loop_eq hr, if_pos (lt_pidFuel _)]

end

/-! ## The pid map -/

section
variable {t t' : TreeNode} {pid : Idx → Word} {state : Idx → PState} {p : Idx} {r : Word}

/-- Inserting a new pid allocates one node and fails only there. -/
theorem insert_new {r : Word} (idx : Word) (h0 : lookup t r = none) : ∃ grow : Word → TreeNode, ∀ h, insert h t r idx =
    (kmalloc h SIZEOF_TREENODE).bind fun x => if x.1 = 0 then none else some (grow x.1, x.2) := by
  induction t with
  | null => exact ⟨fun a => .node a r idx 1 .null .null, fun h => rfl⟩
  | node a p i ht left right ihl ihr =>
    unfold lookup at h0
    split at h0
    · cases h0
    · next hne =>
      split at h0
      · next hlt =>
        obtain ⟨grow, hg⟩ := ihr h0
        refine ⟨fun x => rebalance (updateHeight (.node a p i ht left (grow x))), fun h => ?_⟩
        rw [insert, if_pos hlt, hg h]
        cases kmalloc h SIZEOF_TREENODE with
        | none => rfl
        | some x =>
          simp only [Option.bind_some]
          split <;> rfl
      · next hge =>
        obtain ⟨grow, hg⟩ := ihl h0
        have hlt : r < p := by bv_omega
        refine ⟨fun x => rebalance (updateHeight (.node a p i ht (grow x) right)), fun h => ?_⟩
        rw [insert, if_neg hge, if_pos hlt, hg h]
        cases kmalloc h SIZEOF_TREENODE with
        | none => rfl
        | some x =>
          simp only [Option.bind_some]
          split <;> rfl

/-- A map that agrees with a table with one process more has one entry more. -/
theorem Agree.length_add (ha : Agree t pid state) {st : PState} (hp : state p = .STOPPED) (hst : st ≠ .STOPPED)
    (hr : lookup t r = none) (ha' : Agree t' (Function.update pid p r) (Function.update state p st)) :
    t.entries.length < t'.entries.length := by
  have hsub : (r, pcbIndex p) :: t.entries ⊆ t'.entries := by
    rintro ⟨q, v⟩ hm
    rcases List.mem_cons.1 hm with e | hm
    · rw [e, ha'.entries]
      exact ⟨p, by rwa [Function.update_self], by rw [Function.update_self], rfl⟩
    · obtain ⟨i, hi, rfl, rfl⟩ := (ha.entries q v).1 hm
      have hip : i ≠ p := by
        rintro rfl
        exact hi hp
      rw [ha'.entries]
      exact ⟨i, by rwa [Function.update_of_ne hip], by rw [Function.update_of_ne hip], rfl⟩
  have hno : (r, pcbIndex p) ∉ t.entries := by
    intro hm
    rw [← lookup_iff ha.ordered, hr] at hm
    cases hm
  have hle := ((List.nodup_cons.2 ⟨hno, entries_nodup ha.ordered⟩).subperm hsub).length_le
  exact hle

/-- The map agrees with the table again exactly when the insertion does not turn right. -/
theorem Agree.insert_iff (ha : Agree t pid state) (hh : t.HeightsLe (2 ^ 30)) {st : PState} {hp hp' : Heap}
    (hstopped : state p = .STOPPED) (hst : st ≠ .STOPPED) (hr : ¬Taken t r)
    (hi : insert hp t r (pcbIndex p) = some (t', hp')) :
    Agree t' (Function.update pid p r) (Function.update state p st) ↔ insertTurnsRight t r = false := by
  obtain ⟨hr0, hnew⟩ := not_or.1 hr
  have hnew' : lookup t r = none := by simpa using hnew
  constructor
  · intro ha'
    by_contra hturn
    have hlen : t.entries.length ≤ 256 := ha.length_le
    have hroom : 2 ^ 30 + 4 * (t.entries.length + 1) ≤ 2 ^ 31 := by omega
    have hle := (insert_turned hh hroom hi).turned (by simpa using hturn)
    have hlt := ha.length_add hstopped hst hnew' ha'
    omega
  · intro hturn
    obtain ⟨hset, hord⟩ := insert_sets ha.ordered hturn hi
    exact ha.add hstopped hr0 hnew' hst hset hord

end

/-! ## The heap -/

/-- The sizes of the free nodes after `amount` bytes are taken from the first one that is large enough. -/
def afterTake (amount : Nat) : List Nat → List Nat
  | [] => []
  | s :: sizes =>
    if amount ≤ s then if amount + 16 < s then (s - amount - 16) :: sizes else sizes
    else s :: afterTake amount sizes

def sizes (free : List Block) : List Nat := free.map fun n => n.size.toNat

section
variable {h h1 : Heap} {free xs ys rest : List Block} {n : Block} {size : Word}

theorem Takes.sizes_eq (ht : Takes h free size xs n ys rest h1) (hn : n.span.hi ≤ FREEMEM_END.toNat) :
    sizes (xs ++ rest ++ ys) = afterTake (roundUp size.toNat) (sizes free) := by
  obtain rfl := ht.free_eq
  have hrest : sizes (rest ++ ys) = afterTake (roundUp size.toNat) (sizes (n :: ys)) := by
    have hfits := ht.fits
    have ha := ht.amount
    unfold sizes
    rw [List.map_cons, afterTake, if_pos hfits]
    cases ht.remainder with
    | whole hle =>
      rw [if_neg (by omega)]
      rfl
    | split m hroom hm hms =>
      rw [if_pos (by omega), List.map_append, List.map_singleton, List.singleton_append, hms]
      congr 1
      have hend : FREEMEM_END.toNat = 0x400000 := rfl
      simp only [Block.span, hend] at hn
      simp only [SIZEOF_MEMHEADER]
      bv_omega
  have hsmall := ht.small
  clear ht
  induction xs with
  | nil => exact hrest
  | cons x xs ih =>
    have hx := hsmall x (by simp)
    have hxs := ih fun y hy => hsmall y (by simp [hy])
    unfold sizes at hxs ⊢
    rw [List.cons_append, List.cons_append, List.cons_append, List.map_cons, List.map_cons, afterTake,
      if_neg (Nat.not_le.2 hx), hxs]

/-- There is a block of this size exactly when some node is large enough. -/
theorem noFit_iff (hs : 0 < size.toInt) : ¬NoFit free size ↔ ∃ s ∈ sizes free, roundUp size.toNat ≤ s := by
  unfold NoFit sizes
  simp only [List.mem_map, exists_exists_and_eq_and, not_or, not_forall, Nat.not_lt, exists_prop]
  exact and_iff_right (Int.not_le.2 hs)

end

theorem align16_toNat_of_nonneg {x : Word} (hx : 0 ≤ x.toInt) : (align16 x).toNat = roundUp x.toNat := by
  rcases Int.lt_or_eq_of_le hx with hlt | h0
  · exact align16_toNat hlt
  · obtain rfl : x = 0 := BitVec.eq_of_toInt_eq h0.symm
    rfl

/-- A first context ends 48 bytes behind its address. -/
theorem first_context_outside (im : Image) (m : Mem) {context func x : Word} (hx : 48 ≤ (x - context).toNat) :
    first_context im m context func x = m x := by
  have hset (m : Mem) (f : FrameField) (v : Word) (hf : f.offset.toNat ≤ 44) : setFrame m context f v x = m x := by
    refine Mem.store32_outside _ _ _ _ ?_
    bv_omega
  have hargs (m : Mem) : m.store32 (context + SIZEOF_CONTEXTFRAME) im.sysstop x = m x := by
    refine Mem.store32_outside _ _ _ _ ?_
    simp only [SIZEOF_CONTEXTFRAME]
    bv_omega
  unfold first_context zeroRegisters
  simp only [hargs]
  repeat rw [hset _ _ _ (by decide)]

/-! ## The call -/

/-- The size `create` asks for. -/
def blockSize (stack : Word) : Word := stack + SAFETY_MARGIN + SIZEOF_CONTEXTFRAME

/-- The kernel before the new process is readied. -/
def installed (im : Image) (k : Kernel) (p : Idx) (r func stack parent ptr : Word) (t : TreeNode) (h : Heap) : Kernel :=
  reset_pcb { k with
    toHeap := { h with mem := first_context im h.mem (ptr + align16 stack) func }
    nextPid := r + 1
    pid := Function.update k.pid p r
    parentPid := Function.update k.parentPid p parent
    stack := Function.update k.stack p ptr
    esp := Function.update k.esp p (ptr + align16 stack)
    pidMap := t } p

/-- The stack, its safety margin and the first context. -/
theorem le_roundUp_blockSize {stack : Word} (hs : 0 ≤ stack.toInt) :
    stack.toNat + 108 ≤ roundUp (blockSize stack).toNat := by
  have hlt : stack.toNat < 2 ^ 31 := by
    rw [BitVec.toInt_eq_toNat_cond] at hs
    omega
  have e : (blockSize stack).toNat = stack.toNat + 108 := by
    simp only [blockSize, SAFETY_MARGIN, SIZEOF_CONTEXTFRAME]
    bv_omega
  unfold roundUp
  omega

theorem firstStopped_none {k : Kernel} : firstStopped k = none ↔ ∀ i, k.state i ≠ .STOPPED := by
  unfold firstStopped
  rw [List.find?_eq_none]
  simp

section
variable (im : Image) {k : Kernel} {h : Heap} (func : Word) {stack : Word} (parent : Word) {ptr r : Word} {p : Idx}

theorem create_refused (hk : kmalloc k.toHeap (blockSize stack) = some (0, h)) :
    create im k func stack parent = some (SYSERR, { k with toHeap := h }) := by
  unfold create
  exact congrArg (Option.bind · _) hk

theorem create_full (hk : kmalloc k.toHeap (blockSize stack) = some (ptr, h)) (hp : ptr ≠ 0)
    (hfull : firstStopped k = none) :
    create im k func stack parent = (kfree h ptr).map fun h' => (SYSERR, { k with toHeap := h' }) := by
  unfold create
  refine (congrArg (Option.bind · _) hk).trans ?_
  simp only [Option.bind_some, if_pos hp]
  rw [show firstStopped { k with toHeap := h } = none from hfull]
  cases kfree h ptr <;> rfl

theorem create_new (hk : kmalloc k.toHeap (blockSize stack) = some (ptr, h)) (hp : ptr ≠ 0)
    (hfs : firstStopped k = some p) (hr : getNextPid_loop k.pidMap PID_FUEL k.nextPid = some r) :
    create im k func stack parent = (insert h k.pidMap r (pcbIndex p)).bind fun x =>
      (ready (installed im k p r func stack parent ptr x.1 x.2) p).map fun k' => (r, k') := by
  unfold create getNextPid pidMapInsert
  refine (congrArg (Option.bind · _) hk).trans ?_
  simp only [Option.bind_eq_bind, Option.bind_some, if_pos hp]
  rw [show firstStopped { k with toHeap := h } = some p from hfs]
  simp only [hr, Option.bind_some]
  cases insert h k.pidMap r (pcbIndex p) with
  | none => rfl
  | some x =>
    simp only [Option.bind_some, Option.map_eq_bind]
    rfl

/-- The first context lies inside the stack block. -/
theorem Represents.first_context {free live : List Block} {b : Block} (hr : Represents wholeArena h free live)
    (hb : b ∈ live) (hs : 0 ≤ stack.toInt) (hsize : stack.toNat + 108 ≤ b.size.toNat) :
    Represents wholeArena { h with mem := Xeros.first_context im h.mem (dataStart b.addr + align16 stack) func }
      free live := by
  have hbelow := hr.below (List.mem_append_right _ hb)
  have halign := align16_toNat_of_nonneg hs
  have hup : roundUp stack.toNat ≤ stack.toNat + 15 := by
    unfold roundUp
    omega
  have hesp : (dataStart b.addr + align16 stack).toNat = b.addr.toNat + 16 + roundUp stack.toNat := by
    simp only [dataStart, SIZEOF_MEMHEADER]
    bv_omega
  refine hr.congr rfl fun c hc g => Mem.load32_congr fun x hx => first_context_outside im _ ?_
  have hg := g.offset_le
  have hcb := hr.below hc
  -- the header of `c` is below the payload of `b`, or `c` is elsewhere
  have hlt : c.addr.toNat + 16 ≤ b.addr.toNat + 16 ∨ b.addr.toNat + 16 + b.size.toNat ≤ c.addr.toNat := by
    by_cases e : c.addr = b.addr
    · exact .inl (by rw [e])
    · refine (hr.apart hc (List.mem_append_right _ hb) e).imp (fun hle => ?_) fun hle => hle
      have hle' : c.addr.toNat + 16 + c.size.toNat ≤ b.addr.toNat := hle
      omega
  bv_omega

end

/-! ## All or nothing -/

/-- The pid map and the ready queue match the table; no stored height is near the end of an `int`. -/
structure Tables (k : Kernel) : Prop where
  agree : Agree k.pidMap k.pid k.state
  heights : k.pidMap.HeightsLe (2 ^ 30)
  ready : ReadyList k
  queued : ∀ i ∈ readyQueue k, k.state i ≠ .STOPPED

theorem height_le_length (t : TreeNode) : t.height ≤ t.entries.length := by
  induction t with
  | null => exact Nat.zero_le _
  | node a p i ht left right ihl ihr =>
    simp only [height, entries, List.length_append, List.length_cons]
    omega

theorem TreeNode.Balanced.heightsLe {t : TreeNode} {n : Nat} (hb : t.Balanced) (hn : t.height ≤ n) : t.HeightsLe n := by
  induction t with
  | null => trivial
  | node a p i ht left right ihl ihr =>
    obtain ⟨hh, -, hl, hr⟩ := hb
    unfold height at hn
    refine ⟨hh ▸ hn, ihl hl ?_, ihr hr ?_⟩
    · omega
    · omega

/-- The heights of a balanced map are right, and those are small. -/
theorem Tables.of_balanced {k : Kernel} (ha : Agree k.pidMap k.pid k.state) (hb : k.pidMap.Balanced) (hr : ReadyList k)
    (hq : ∀ i ∈ readyQueue k, k.state i ≠ .STOPPED) : Tables k := by
  have hle : k.pidMap.height ≤ 256 := (height_le_length _).trans ha.length_le
  exact ⟨ha, hb.heightsLe (hle.trans (by decide)), hr, hq⟩

/-- Everything is as it was; the free list has the nodes it had. -/
structure Untouched (k k' : Kernel) (free : List Block) : Prop where
  kernel : k' = { k with toHeap := k'.toHeap }
  chain : FreeChain k'.toHeap (free.map Block.node)

/-- One process more. -/
structure Installed (k k' : Kernel) (live : List Block) (r stack parent : Word) (p : Idx) : Prop where
  unused : k.state p = .STOPPED
  state : k'.state = Function.update k.state p .READY
  pid : k'.pid = Function.update k.pid p r
  parentPid : k'.parentPid = Function.update k.parentPid p parent
  mapped : Agree k'.pidMap k'.pid k'.state
  ready : ReadyList k'
  last : readyQueue k' = readyQueue k ++ [p]
  owned : ∃ free' node block, Represents wholeArena k'.toHeap free' (node :: block :: live) ∧
    Spaced (free'.map Block.span) ∧ k'.stack = Function.update k.stack p (dataStart block.addr) ∧
    stack.toNat + 108 ≤ block.size.toNat

def AllOrNothing (im : Image) (k : Kernel) (free live : List Block) (func stack parent : Word) : Prop :=
  ∃ r k', create im k func stack parent = some (r, k') ∧
    (r ≠ SYSERR ∧ (∃ p, Installed k k' live r stack parent p) ∨ r = SYSERR ∧ Untouched k k' free)

/-- What has to hold where there is a block for the stack. -/
structure CreateSafe (k : Kernel) (free : List Block) (stack : Word) : Prop where
  /-- With a full table, the block comes back whole. -/
  whole : (∀ i, k.state i ≠ .STOPPED) → ∀ n,
    (free.find? fun n => roundUp (blockSize stack).toNat ≤ n.size.toNat) = some n →
    n.size.toNat ≠ roundUp (blockSize stack).toNat + 16
  /-- With an unused PCB, a node of the pid map still fits. -/
  room : (∃ i, k.state i = .STOPPED) → ∃ s ∈ afterTake (roundUp (blockSize stack).toNat) (sizes free), 32 ≤ s
  /-- The next pid is not the number of an error and turns nothing to the right. -/
  pid : (∃ i, k.state i = .STOPPED) → ∀ r, FirstUnused k.pidMap k.nextPid r →
    r ≠ SYSERR ∧ insertTurnsRight k.pidMap r = false

section
variable (im : Image) {k : Kernel} {h h1 : Heap} {free live : List Block} (func : Word) {stack : Word} (parent : Word)
  {r : Word} {p : Idx}

theorem installed_ready (ht : Tables k) (hp : k.state p = .STOPPED) (r stack ptr : Word) (t : TreeNode) (h : Heap) :
    ∃ k', ready (installed im k p r func stack parent ptr t h) p = some k' ∧ ReadyList k' ∧
      readyQueue k' = readyQueue k ++ [p] := by
  have hnot : p ∉ readyQueue k := fun hm => ht.queued p hm hp
  have hsame : ReadyList (installed im k p r func stack parent ptr t h) ∧
      readyQueue (installed im k p r func stack parent ptr t h) = readyQueue k := by
    refine ht.ready.congr rfl fun i hi => Function.update_of_ne ?_ ..
    rintro rfl
    exact hnot hi
  obtain ⟨hl, hq⟩ := hsame
  obtain ⟨k', hk', hl', hq', -⟩ := hl.ready (p := p) (by rwa [hq])
  exact ⟨k', hk', hl', by rw [hq', hq]⟩

/-- With the stack block in hand, `create` runs out of memory for the node of
the pid map, or it installs the process. -/
theorem create_install {block : Block} (ht : Tables k) (hs : 0 ≤ stack.toInt)
    (hr1 : Represents wholeArena h1 free (block :: live)) (hsp : Spaced (free.map Block.span))
    (hk : kmalloc k.toHeap (blockSize stack) = some (dataStart block.addr, h1))
    (hb0 : dataStart block.addr ≠ 0) (hsize : stack.toNat + 108 ≤ block.size.toNat)
    (hfs : firstStopped k = some p) (hr : getNextPid_loop k.pidMap PID_FUEL k.nextPid = some r) :
    (¬∃ s ∈ sizes free, 32 ≤ s) ∧ create im k func stack parent = none ∨
      (∃ s ∈ sizes free, 32 ≤ s) ∧ ∃ k', create im k func stack parent = some (r, k') ∧ k'.state p = .READY ∧
        (Installed k k' live r stack parent p ↔ insertTurnsRight k.pidMap r = false) := by
  have hp := firstStopped_spec hfs
  obtain ⟨hr0, hnew⟩ := getNextPid_loop_spec hr
  obtain ⟨grow, hins⟩ := insert_new (pcbIndex p) hnew
  have hcreate := create_new im func parent hk hb0 hfs hr
  rw [hins h1] at hcreate
  have hfit : ¬NoFit free SIZEOF_TREENODE ↔ ∃ s ∈ sizes free, 32 ≤ s := noFit_iff (by decide)
  rcases kmalloc_takes_beside hr1 hsp SIZEOF_TREENODE with
    ⟨hno, hk2⟩ | ⟨hyes, xs, n, ys, rest, h2, node, htakes, -, -, hr2⟩
  · left
    refine ⟨fun hex => hfit.2 hex hno, ?_⟩
    rw [hcreate, hk2]
    rfl
  · right
    refine ⟨hfit.1 hyes, ?_⟩
    have hins2 : insert h1 k.pidMap r (pcbIndex p) = some (grow (dataStart n.addr), h2) := by
      rw [hins h1, htakes.result, Option.bind_some, if_neg htakes.nonnull]
    obtain ⟨k', hk', hl, hq⟩ :=
      installed_ready im func parent ht hp r stack (dataStart block.addr) (grow (dataStart n.addr)) h2
    have e := ready_eq hk'
    have hpid : k'.pid = Function.update k.pid p r := by rw [e]; rfl
    have hstate : k'.state = Function.update k.state p .READY := by rw [e]; rfl
    have hmap : k'.pidMap = grow (dataStart n.addr) := by rw [e]; rfl
    have hmapped : Agree (grow (dataStart n.addr)) (Function.update k.pid p r) (Function.update k.state p .READY) ↔
        insertTurnsRight k.pidMap r = false :=
      ht.agree.insert_iff ht.heights hp (by decide) (not_or.2 ⟨hr0, by simp [hnew]⟩) hins2
    refine ⟨k', ?_, by rw [hstate, Function.update_self], fun hi => ?_, fun hturn => ?_⟩
    · rw [hcreate, htakes.result, Option.bind_some, if_neg htakes.nonnull, Option.bind_some, hk']
      rfl
    · rw [← hmapped, ← hpid, ← hstate, ← hmap]
      exact hi.mapped
    · refine ⟨hp, hstate, hpid, by rw [e]; rfl, ?_, hl, hq, _, node, block, ?_, htakes.wellFormed.spaced,
        by rw [e]; rfl, hsize⟩
      · rw [hpid, hstate, hmap]
        exact hmapped.2 hturn
      · rw [e]
        exact hr2.first_context im func (by simp) hs hsize

theorem allOrNothing_error {h' : Heap}
    (hc : create im k func stack parent = some (SYSERR, { k with toHeap := h' })) :
    AllOrNothing im k free live func stack parent ↔ FreeChain h' (free.map Block.node) := by
  constructor
  · rintro ⟨r, k', hk', ⟨hr, -⟩ | ⟨-, hu⟩⟩
    · rw [hc, Option.some.injEq, Prod.mk.injEq] at hk'
      exact absurd hk'.1.symm hr
    · rw [hc, Option.some.injEq, Prod.mk.injEq] at hk'
      rw [← hk'.2] at hu
      exact hu.chain
  · intro hch
    exact ⟨SYSERR, _, hc, .inr ⟨rfl, rfl, hch⟩⟩

/-- `create` installs one process or changes nothing exactly when there is no
block for the stack, or none of the four things that can go wrong does. -/
theorem create_all_or_nothing_iff (hr : Represents wholeArena k.toHeap free live) (hsp : Spaced (free.map Block.span))
    (ht : Tables k) (hs : 0 ≤ stack.toInt) :
    AllOrNothing im k free live func stack parent ↔ NoFit free (blockSize stack) ∨ CreateSafe k free stack := by
  have hw := hr.wellFormed hsp
  rcases kmalloc_takes_beside hr hsp (blockSize stack) with
    ⟨hno, hk⟩ | ⟨hyes, xs, n, ys, rest, h1, block, htk, hba, hbs, hr1⟩
  · refine iff_of_true ?_ (.inl hno)
    exact (allOrNothing_error im func parent (create_refused im func parent hk)).2 hw.forward.toFreeChain
  rw [or_iff_right hyes]
  have hk : kmalloc k.toHeap (blockSize stack) = some (dataStart block.addr, h1) := by rw [htk.result, hba]
  have hb0 : dataStart block.addr ≠ 0 := by
    rw [hba]
    exact htk.nonnull
  cases hfs : firstStopped k with
  | none =>
    have hfull := firstStopped_none.1 hfs
    have hno : ¬∃ i, k.state i = .STOPPED := fun ⟨i, hi⟩ => hfull i hi
    obtain ⟨h2, hk2, hiff⟩ := htk.restores_iff hw
    rw [← hba] at hk2
    have hc := create_full im func parent hk hb0 hfs
    rw [hk2] at hc
    rw [allOrNothing_error im func parent hc, hiff]
    constructor
    · intro hne
      refine ⟨fun _ m hm => ?_, fun hex => absurd hex hno, fun hex => absurd hex hno⟩
      obtain rfl : n = m := Option.some.inj (htk.find.symm.trans hm)
      exact hne
    · intro hsafe
      exact hsafe.whole hfull n htk.find
  | some p =>
    have hp := firstStopped_spec hfs
    obtain ⟨r, hloop, hfirst⟩ := getNextPid_first ht.agree k.nextPid
    have hbsize : stack.toNat + 108 ≤ block.size.toNat := by
      rw [hbs, htk.amount]
      exact le_roundUp_blockSize hs
    have hrest : (∃ s ∈ sizes (xs ++ rest ++ ys), 32 ≤ s) ↔
        ∃ s ∈ afterTake (roundUp (blockSize stack).toNat) (sizes free), 32 ≤ s := by
      rw [htk.sizes_eq (hw.below n (htk.free_eq ▸ by simp))]
    rcases create_install im func parent ht hs hr1 htk.wellFormed.spaced hk hb0 hbsize hfs
      hloop with ⟨hnone, hc⟩ | ⟨hroom, k', hc, hready, hiff⟩
    · refine iff_of_false ?_ fun hsafe => hnone (hrest.2 (hsafe.room ⟨p, hp⟩))
      rintro ⟨r', k', hk', -⟩
      rw [hc] at hk'
      cases hk'
    · constructor
      · rintro ⟨r', k1, hk1, hor⟩
        rw [hc, Option.some.injEq, Prod.mk.injEq] at hk1
        obtain ⟨rfl, rfl⟩ := hk1
        obtain ⟨hne, q, hq⟩ | ⟨-, hu⟩ := hor
        · obtain rfl : p = q := by
            by_contra hpq
            rw [hq.state, Function.update_of_ne hpq, hp] at hready
            cases hready
          refine ⟨fun hfull => absurd hp (hfull p), fun _ => hrest.1 hroom, fun _ r' hr' => ?_⟩
          obtain rfl := hfirst.unique hr'
          exact ⟨hne, hiff.1 hq⟩
        · -- the new process is in the table
          rw [hu.kernel] at hready
          exact absurd (hp.symm.trans hready) (by decide)
      · intro hsafe
        obtain ⟨hne, hturn⟩ := hsafe.pid ⟨p, hp⟩ r hfirst
        exact ⟨r, k', hc, .inl ⟨hne, p, hiff.2 hturn⟩⟩

end

/-- A kernel without processes. -/
def noProcesses (h : Heap) : Kernel := { init sampleImage (fun _ => 0) with toHeap := h }

theorem tables_noProcesses (h : Heap) : Tables (noProcesses h) := by
  have hempty : ReadyList (noProcesses h) ∧ readyQueue (noProcesses h) = [] := ReadyList.of_chain rfl List.nodup_nil
  obtain ⟨hl, hq⟩ := hempty
  refine .of_balanced (TableInv.init sampleImage fun _ => 0).agree trivial hl ?_
  rw [hq]
  exact fun i hi => absurd hi List.not_mem_nil

theorem firstUnused_noProcesses (h : Heap) : FirstUnused (noProcesses h).pidMap (noProcesses h).nextPid 1 := by
  constructor
  · rintro (h0 | hs)
    · exact absurd h0 (by decide)
    · cases hs
  · have e : (noProcesses h).nextPid = 1 := rfl
    rw [e]
    exact fun j hj => absurd hj (Nat.not_lt_zero j)

theorem create_all_or_nothing_256 : AllOrNothing sampleImage
    (noProcesses (kmeminit 0x20000 { mem := fun _ => 0, freeList := 0 }))
    [⟨0x20000, 0x7FFF0, by decide, by decide, by decide⟩, ⟨HOLEEND, 0x269FF0, by decide, by decide, by decide⟩] []
    0x5000 256 0 := by
  refine (create_all_or_nothing_iff sampleImage 0x5000 0 wellFormed_kmeminit.represents wellFormed_kmeminit.spaced
    (tables_noProcesses _) (by decide)).2 (.inr ⟨fun hfull => absurd rfl (hfull 0), fun _ => by decide +kernel, ?_⟩)
  intro _ r hr
  obtain rfl := (firstUnused_noProcesses _).unique hr
  exact ⟨by decide, rfl⟩

/-- A heap that is one free node of 112 bytes. -/
def oneNode : Heap := Heap.set { mem := fun _ => 0, freeList := 0x20000 } 0x20000 .size 112

/-- The stack block takes all of the heap, and then there is no room for the node of the pid map. -/
theorem create_aborts : ¬∀ im k free live func stack parent, Represents wholeArena k.toHeap free live →
    Spaced (free.map Block.span) → Tables k → 0 ≤ stack.toInt → AllOrNothing im k free live func stack parent := by
  intro hall
  have hw : WellFormed oneNode [⟨0x20000, 112, by decide, by decide, by decide⟩] :=
    ⟨⟨by decide +kernel, by decide +kernel⟩, by decide +kernel, by decide +kernel, by decide +kernel⟩
  obtain ⟨r, k', hk', -⟩ := hall sampleImage (noProcesses oneNode) _ _ 0x5000 0 0 hw.represents hw.spaced
    (tables_noProcesses oneNode) (by decide)
  have hnone : create sampleImage (noProcesses oneNode) 0x5000 0 0 = none := by
    rw [← Option.isNone_iff_eq_none]
    decide +kernel
  rw [hnone] at hk'
  cases hk'

end Xeros
