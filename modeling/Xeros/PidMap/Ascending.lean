import Xeros.PidMap.Balance
import Mathlib.Data.Fintype.EquivFin
/-!
# Pids in ascending order

`getNextPid` counts up until it wraps. A tree that grows on its right side only
is turned to the left alone: an insertion that makes a subtree higher leaves its
right subtree the higher one (`Extended`), which is what `rotateLeft` needs.
-/

namespace Xeros

open Assoc TreeNode

/-- Inserts pids and indices one after another. -/
def insertAll (h : Heap) (t : TreeNode) (l : List (Word × Word)) : Option (TreeNode × Heap) :=
  l.foldlM (fun (t, h) (pid, idx) => insert h t pid idx) (t, h)

/-- The heap after the allocation of `n` nodes, if there is memory for all of them. -/
def allocNodes (h : Heap) : Nat → Option Heap
  | 0 => some h
  | n + 1 => do
    let (newNode, h) ← kmalloc h SIZEOF_TREENODE
    if newNode = 0 then none else allocNodes h n

namespace TreeNode

/-- The right subtree is the higher one. -/
def RightHeavy : TreeNode → Prop
  | .null => False
  | .node _ _ _ _ left right => right.height = left.height + 1

end TreeNode

variable {h h' : Heap} {t t' left right : TreeNode} {a p i ht pid idx : Word} {l : List (Word × Word)}

/-! ## Heights as words -/

/-- The test of the balance is exact where the heights are close. -/
theorem balanceFactor_eq (hl : left.Balanced) (hr : right.Balanced)
    (hlr : left.height ≤ right.height + 2 ∧ right.height ≤ left.height + 2) :
    balanceFactor (.node a p i ht left right) = (left.height : Int) - right.height := by
  have h1 := Balanced.heightOf hl
  have h2 := Balanced.heightOf hr
  have h3 := left.heightOf.isLt
  have h4 := right.heightOf.isLt
  rw [← h1, ← h2] at hlr ⊢
  rw [balanceFactor, BitVec.toInt_sub]
  rw [BitVec.toInt_eq_toNat_cond, BitVec.toInt_eq_toNat_cond, Int.bmod]
  split <;> split <;> split <;> omega

theorem updateHeight_balanced (ht : Word) (hl : left.Balanced) (hr : right.Balanced)
    (hlr : left.height ≤ right.height + 1 ∧ right.height ≤ left.height + 1)
    (hroom : max left.height right.height + 1 < 2 ^ 32) : (updateHeight (.node a p i ht left right)).Balanced := by
  refine ⟨?_, hlr, hl, hr⟩
  have h1 := Balanced.heightOf hl
  have h2 := Balanced.heightOf hr
  split
  · next hlt =>
    have hlt' : right.heightOf.toNat < left.heightOf.toNat := hlt
    bv_omega
  · next hlt =>
    have hlt' : ¬right.heightOf.toNat < left.heightOf.toNat := hlt
    bv_omega

/-- A balanced tree is less than half as high as it has entries, but for the smallest ones. -/
theorem Balanced.height_le_entries (hb : t.Balanced) : 2 * t.height ≤ t.entries.length + 2 ∧ t.height ≤ t.entries.length := by
  induction t with
  | null => exact ⟨Nat.zero_le _, Nat.zero_le _⟩
  | node a p i ht left right ihl ihr =>
    obtain ⟨-, hlr, hl, hr⟩ := hb
    have h1 := ihl hl
    have h2 := ihr hr
    simp only [height, entries, List.length_append, List.length_cons]
    omega

/-! ## One insertion -/

/-- What the insertion of a pid above all others does to a tree. -/
structure Extended (t t' : TreeNode) (pid idx : Word) : Prop where
  balanced : t'.Balanced
  entries : t'.entries = t.entries ++ [(pid, idx)]
  height : t'.height = t.height ∨ t'.height = t.height + 1 ∧ (t = .null ∨ t'.RightHeavy)

/-- The right subtree has become two higher than the left one. -/
theorem rotateLeft_restores (hl : left.Balanced) (hr : right.Balanced) (hheavy : right.RightHeavy)
    (hlr : right.height = left.height + 2) (hroom : right.height < 2 ^ 32) :
    (rotateLeft (.node a p i ht left right)).Balanced ∧ (rotateLeft (.node a p i ht left right)).height = right.height := by
  cases right with
  | null => exact hheavy.elim
  | node a' p' i' ht' left' right' =>
    obtain ⟨-, -, hl', hr'⟩ := hr
    have hheavy : right'.height = left'.height + 1 := hheavy
    simp only [height] at hlr hroom
    have hinner : (updateHeight (.node a p i ht left left')).Balanced :=
      updateHeight_balanced ht hl hl' (by omega) (by omega)
    have hheight : (updateHeight (.node a p i ht left left')).height = left.height + 1 := by
      simp only [updateHeight, height]
      omega
    refine ⟨updateHeight_balanced ht' hinner hr' (by omega) (by omega), ?_⟩
    simp only [rotateLeft, updateHeight, height]
    omega

/-- On the way up the node is as high as it should be, or one turn to the left makes it so. -/
theorem Extended.up {right' : TreeNode} (hb : (node a p i ht left right).Balanced) (hs : Extended right right' pid idx)
    (hroom : (node a p i ht left right).height + 1 < 2 ^ 32) :
    Extended (.node a p i ht left right) (rebalance (updateHeight (.node a p i ht left right'))) pid idx ∧
      turnsRight (updateHeight (.node a p i ht left right')) = false := by
  obtain ⟨-, hlr, hl, hr⟩ := hb
  obtain ⟨hb', hentries, hheight⟩ := hs
  have hh : (node a p i ht left right).height = max left.height right.height + 1 := rfl
  rw [hh] at hroom
  have hbal (ht' : Word) : balanceFactor (.node a p i ht' left right') = (left.height : Int) - right'.height :=
    balanceFactor_eq hl hb' (by omega)
  by_cases htwo : right'.height = left.height + 2
  · -- the right subtree has grown, and it is not a new leaf
    have hheavy : right'.RightHeavy := by
      rcases hheight with e | ⟨e, rfl | hheavy⟩
      · omega
      · simp only [TreeNode.height] at e htwo
        omega
      · exact hheavy
    have hright : ¬0 < balanceFactor right' := by
      cases right' with
      | null => exact hheavy.elim
      | node a' p' i' ht' left' right'' =>
        obtain ⟨-, -, hl', hr'⟩ := hb'
        have hheavy : right''.height = left'.height + 1 := hheavy
        rw [balanceFactor_eq hl' hr' (by omega)]
        omega
    have hturn : turnsRight (updateHeight (.node a p i ht left right')) = false := by
      rw [updateHeight, turnsRight, hbal, Bool.or_eq_false_iff, decide_eq_false_iff_not, decide_eq_false_iff_not]
      exact ⟨by omega, fun h => hright h.2⟩
    obtain ⟨hbalanced, hsame⟩ : (rebalance (updateHeight (.node a p i ht left right'))).Balanced ∧
        (rebalance (updateHeight (.node a p i ht left right'))).height = right'.height := by
      rw [updateHeight, rebalance, hbal, if_neg (by omega), if_pos (by omega), if_neg hright]
      exact rotateLeft_restores hl hb' hheavy htwo (by omega)
    refine ⟨⟨hbalanced, ?_, .inl (by omega)⟩, hturn⟩
    rw [entries_rebalance hturn, entries_updateHeight]
    simp [TreeNode.entries, hentries]
  · have hturn : turnsRight (updateHeight (.node a p i ht left right')) = false := by
      rw [updateHeight, turnsRight, hbal, Bool.or_eq_false_iff, decide_eq_false_iff_not, decide_eq_false_iff_not]
      exact ⟨by omega, fun h => by omega⟩
    have hstay : rebalance (updateHeight (.node a p i ht left right')) = updateHeight (.node a p i ht left right') := by
      rw [updateHeight, rebalance, hbal, if_neg (by omega), if_neg (by omega)]
    refine ⟨⟨?_, ?_, ?_⟩, hturn⟩
    · rw [hstay]
      exact updateHeight_balanced ht hl hb' (by omega) (by omega)
    · rw [hstay, entries_updateHeight]
      simp [TreeNode.entries, hentries]
    · rw [hstay]
      simp only [updateHeight, TreeNode.height, RightHeavy]
      omega

/-- A pid above all others is inserted along the right spine. -/
theorem insert_last (hb : t.Balanced) (hlast : ∀ e ∈ t.entries, e.1 < pid) (hroom : t.height + 1 < 2 ^ 32)
    (hi : insert h t pid idx = some (t', h')) : Extended t t' pid idx ∧ insertTurnsRight t pid = false := by
  induction t generalizing h h' t' with
  | null =>
    obtain ⟨⟨a, h1⟩, -, hi⟩ := Option.bind_eq_some_iff.1 hi
    simp only [] at hi
    split at hi
    · cases hi
    · cases hi
      exact ⟨⟨⟨rfl, ⟨Nat.zero_le _, Nat.zero_le _⟩, trivial, trivial⟩, rfl, .inr ⟨rfl, .inl rfl⟩⟩, rfl⟩
  | node a p i ht left right ihl ihr =>
    have hp : p < pid := hlast (p, i) (List.mem_append_right _ List.mem_cons_self)
    rw [insert, if_pos hp] at hi
    obtain ⟨⟨r, h1⟩, hins, hi⟩ := Option.bind_eq_some_iff.1 hi
    cases hi
    obtain ⟨hext, hturns⟩ := ihr hb.2.2.2 (fun e he => hlast e (List.mem_append_right _ (List.mem_cons_of_mem _ he)))
      (by simp only [height] at hroom; omega) hins
    obtain ⟨hup, hturn⟩ := hext.up hb hroom
    refine ⟨hup, ?_⟩
    rw [insertTurnsRight, if_pos hp, hturns, Bool.false_or, ← insert_shape hins, ← hturn,
      ← turnsRight_shape (updateHeight (.node a p i ht left r)), shape_updateHeight]
    rfl

/-- The memory for the node is all that such an insertion needs. -/
theorem insert_last_heap (h : Heap) (idx : Word) (hlast : ∀ e ∈ t.entries, e.1 < pid) :
    (insert h t pid idx).map Prod.snd = allocNodes h 1 := by
  induction t generalizing h with
  | null =>
    rw [insert, allocNodes]
    cases kmalloc h SIZEOF_TREENODE with
    | none => rfl
    | some r =>
      simp only [Option.bind_eq_bind, Option.bind_some]
      split
      · rfl
      · rfl
  | node a p i ht left right ihl ihr =>
    have hp : p < pid := hlast (p, i) (List.mem_append_right _ List.mem_cons_self)
    rw [insert, if_pos hp, ← ihr h fun e he => hlast e (List.mem_append_right _ (List.mem_cons_of_mem _ he))]
    cases insert h right pid idx <;> rfl

/-! ## A sequence of insertions -/

/-- There are 2^32 pids. -/
theorem length_le_of_sorted (hl : Sorted l) : l.length ≤ 2 ^ 32 := by
  have hn : (l.map fun e => e.1.toFin).Nodup := by
    refine List.pairwise_map.2 (hl.imp fun hlt e => ?_)
    exact Assoc.ne_of_lt hlt (BitVec.eq_of_toFin_eq e)
  have hle := hn.length_le_card
  rwa [List.length_map, Fintype.card_fin] at hle

theorem allocNodes_succ (h : Heap) (n : Nat) : allocNodes h (n + 1) = (allocNodes h 1).bind (allocNodes · n) := by
  simp only [allocNodes, Option.bind_eq_bind]
  cases kmalloc h SIZEOF_TREENODE with
  | none => rfl
  | some r =>
    simp only [Option.bind_some]
    split <;> rfl

/-- No insertion of the list into `t` turns a subtree to the right. -/
def NeverTurnsRight (h : Heap) (t : TreeNode) (l : List (Word × Word)) : Prop :=
  ∀ l₁ x l₂, l = l₁ ++ x :: l₂ → ∃ t₁ h₁, insertAll h t l₁ = some (t₁, h₁) ∧ insertTurnsRight t₁ x.1 = false

theorem insertAll_spec (hb : t.Balanced) (hs : Sorted (t.entries ++ l)) :
    (insertAll h t l).map Prod.snd = allocNodes h l.length ∧
    ∀ t' h', insertAll h t l = some (t', h') → t'.Balanced ∧ t'.entries = t.entries ++ l ∧ NeverTurnsRight h t l := by
  induction l generalizing h t with
  | nil =>
    refine ⟨rfl, ?_⟩
    rintro t' h' e
    cases e
    refine ⟨hb, (List.append_nil _).symm, fun l₁ x l₂ e => ?_⟩
    simp at e
  | cons e l ih =>
    obtain ⟨pid, idx⟩ := e
    obtain ⟨-, -, hlast, -⟩ := sorted_around.1 hs
    have hroom : t.height + 1 < 2 ^ 32 := by
      have h1 := length_le_of_sorted hs
      have h2 := Balanced.height_le_entries hb
      rw [List.length_append, List.length_cons] at h1
      omega
    have hheap := insert_last_heap h idx hlast
    have hcons : insertAll h t ((pid, idx) :: l) = (insert h t pid idx).bind fun r => insertAll r.2 r.1 l := by
      rw [insertAll, List.foldlM_cons]
      rfl
    rw [hcons, List.length_cons, allocNodes_succ, ← hheap]
    cases hi : insert h t pid idx with
    | none => exact ⟨rfl, fun _ _ e => by cases e⟩
    | some r =>
      obtain ⟨t₁, h₁⟩ := r
      obtain ⟨⟨hb₁, hentries, -⟩, hturn⟩ := insert_last hb hlast hroom hi
      have happ : t₁.entries ++ l = t.entries ++ (pid, idx) :: l := by
        rw [hentries, List.append_assoc]
        rfl
      obtain ⟨hheap₁, hrun⟩ := ih (h := h₁) hb₁ (happ ▸ hs)
      refine ⟨hheap₁, fun t' h' e => ?_⟩
      obtain ⟨hb', hentries', hnever⟩ := hrun t' h' e
      refine ⟨hb', hentries'.trans happ, fun l₁ x l₂ e => ?_⟩
      cases l₁ with
      | nil =>
        cases e
        exact ⟨t, h, rfl, hturn⟩
      | cons y l₁ =>
        obtain ⟨rfl, rfl⟩ := List.cons.inj e
        obtain ⟨t₂, h₂, hins, hturn₂⟩ := hnever l₁ x l₂ rfl
        refine ⟨t₂, h₂, ?_, hturn₂⟩
        rw [insertAll, List.foldlM_cons]
        exact (congrArg (·.bind fun r : TreeNode × Heap => insertAll r.2 r.1 l₁) hi).trans hins

/-! ## Results -/

/-- Pids in strictly ascending order, inserted one after another into the empty
tree, make an AVL tree of exactly these pids and indices, and no insertion turns
right. The insertions go through exactly when there is memory for the nodes. -/
theorem ascending_avl (h : Heap) (l : List (Word × Word)) (hl : l.Pairwise fun a b => a.1 < b.1) :
    (∀ h', (∃ t, insertAll h .null l = some (t, h')) ↔ allocNodes h l.length = some h') ∧
    ∀ t h', insertAll h .null l = some (t, h') →
      t.Avl ∧ t.entries = l ∧ (∀ q v, lookup t q = some v ↔ (q, v) ∈ l) ∧ NeverTurnsRight h .null l := by
  obtain ⟨hheap, hrun⟩ := insertAll_spec (h := h) (t := .null) trivial hl
  refine ⟨fun h' => ?_, fun t h' hi => ?_⟩
  · rw [← hheap, Option.map_eq_some_iff]
    constructor
    · rintro ⟨t, hi⟩
      exact ⟨(t, h'), hi, rfl⟩
    · rintro ⟨⟨t, h''⟩, hi, rfl⟩
      exact ⟨t, hi⟩
  · obtain ⟨hb, hentries, hnever⟩ := hrun t h' hi
    have hentries : t.entries = l := hentries
    have hord : t.Ordered := by
      unfold Ordered
      rwa [hentries]
    refine ⟨⟨hord, hb⟩, hentries, fun q v => ?_, hnever⟩
    rw [lookup_iff hord, hentries]

/-- Seven pids as in a run of `getNextPid`. -/
theorem ascending_avl_7_pids : ∃ t h', insertAll (kmeminit 0x20000 ⟨fun _ => 0, 0⟩) .null
    [(1, 0), (2, 1), (3, 2), (4, 3), (5, 4), (6, 5), (7, 6)] = some (t, h') ∧ t.Avl ∧ lookup t 4 = some 3 := by
  have hsome : (insertAll (kmeminit 0x20000 ⟨fun _ => 0, 0⟩) .null
      [(1, 0), (2, 1), (3, 2), (4, 3), (5, 4), (6, 5), (7, 6)]).isSome := by decide +kernel
  obtain ⟨⟨t, h'⟩, hi⟩ := Option.isSome_iff_exists.1 hsome
  obtain ⟨-, hrun⟩ := ascending_avl (kmeminit 0x20000 ⟨fun _ => 0, 0⟩)
    [(1, 0), (2, 1), (3, 2), (4, 3), (5, 4), (6, 5), (7, 6)] (by decide)
  obtain ⟨havl, -, hlookup, -⟩ := hrun t h' hi
  exact ⟨t, h', hi, havl, (hlookup 4 3).2 (by decide)⟩

end Xeros
