import Xeros.PidMap.Delete
import Xeros.Model.Syscall
/-!
# The balance of the tree

`delete` never updates a stored height and never turns a subtree. The tree it
leaves is an AVL tree exactly when the node it unlinks was the root or had a
sibling subtree of the same height (`delete_avl_iff`).
-/

namespace Xeros

open Assoc TreeNode

namespace TreeNode

def height : TreeNode → Nat
  | .null => 0
  | .node _ _ _ _ left right => max left.height right.height + 1

/-- Every stored height is the height, and the heights of the subtrees of a node
differ by at most one. -/
def Balanced : TreeNode → Prop
  | .null => True
  | .node _ _ _ h left right =>
    h.toNat = max left.height right.height + 1 ∧
    (left.height ≤ right.height + 1 ∧ right.height ≤ left.height + 1) ∧ left.Balanced ∧ right.Balanced

instance decidableBalanced : (t : TreeNode) → Decidable t.Balanced
  | .null => inferInstanceAs (Decidable True)
  | .node _ _ _ h left right =>
    have := decidableBalanced left
    have := decidableBalanced right
    inferInstanceAs (Decidable (h.toNat = max left.height right.height + 1 ∧
      (left.height ≤ right.height + 1 ∧ right.height ≤ left.height + 1) ∧ left.Balanced ∧ right.Balanced))

instance (t : TreeNode) : Decidable t.Ordered :=
  inferInstanceAs (Decidable (t.entries.Pairwise fun a b => a.1 < b.1))

structure Avl (t : TreeNode) : Prop where
  ordered : t.Ordered
  balanced : t.Balanced

instance (t : TreeNode) : Decidable t.Avl :=
  decidable_of_iff (t.Ordered ∧ t.Balanced) ⟨fun h => ⟨h.1, h.2⟩, fun h => ⟨h.1, h.2⟩⟩

end TreeNode

/-! ## The node that is unlinked -/

/-- `delete` of `pid` unlinks the root: it has the pid and at most one child. -/
def unlinksRoot : TreeNode → Word → Bool
  | .node _ p _ _ .null _, pid => p == pid
  | .node _ p _ _ _ .null, pid => p == pid
  | _, _ => false

/-- The parent of the node that `delete` of `pid` unlinks has balance factor 0.
This counts as true when there is no such node or no parent. -/
def unlinksEvenly : TreeNode → Word → Bool
  | .null, _ => true
  | .node a p i h left right, pid =>
    let even := decide (balanceFactor (.node a p i h left right) = 0)
    if p = pid then
      if left = .null ∨ right = .null then true
      else
        match rightmost left with
        | none => true
        | some (pid', _) => if unlinksRoot left pid' then even else unlinksEvenly left pid'
    else if pid > p then
      if unlinksRoot right pid then even else unlinksEvenly right pid
    else if unlinksRoot left pid then even else unlinksEvenly left pid

variable {h h' : Heap} {t t' left right c c' s : TreeNode} {a p i ht pid q : Word}

theorem Balanced.heightOf (hb : t.Balanced) : t.heightOf.toNat = t.height := by
  cases t with
  | null => rfl
  | node a p i ht left right => exact hb.1

theorem balanceFactor_zero (hl : left.Balanced) (hr : right.Balanced) :
    balanceFactor (.node a p i ht left right) = 0 ↔ left.height = right.height := by
  rw [← Balanced.heightOf hl, ← Balanced.heightOf hr, balanceFactor]
  constructor
  · intro h0
    have h0' : left.heightOf - right.heightOf = 0 := BitVec.eq_of_toInt_eq h0
    bv_omega
  · intro e
    rw [BitVec.eq_of_toNat_eq e, BitVec.sub_self]
    rfl

/-- A node stays balanced when a subtree `c` becomes `c'` beside `s`. -/
def StaysBalanced (ht : Word) (c' s : TreeNode) : Prop :=
  ht.toNat = max c'.height s.height + 1 ∧ (c'.height ≤ s.height + 1 ∧ s.height ≤ c'.height + 1) ∧ c'.Balanced

/-- What a deletion does to the height of a balanced tree. -/
def Shrinks (t t' : TreeNode) (pid : Word) : Prop :=
  if unlinksRoot t pid then t'.Balanced ∧ t'.height + 1 = t.height
  else (t'.Balanced ↔ unlinksEvenly t pid = true) ∧ (t'.Balanced → t'.height = t.height)

/-- The stored height of the parent is right only if the sibling is as high as
the subtree that has become lower. -/
theorem Shrinks.stays (hs : Shrinks c c' q) (hh : ht.toNat = max c.height s.height + 1)
    (hcs : c.height ≤ s.height + 1 ∧ s.height ≤ c.height + 1) {even : Bool} (he : even = true ↔ c.height = s.height) :
    StaysBalanced ht c' s ↔ (if unlinksRoot c q then even else unlinksEvenly c q) = true := by
  unfold Shrinks at hs
  unfold StaysBalanced
  split at hs
  · next hroot =>
    rw [if_pos hroot, he]
    obtain ⟨hb, hheight⟩ := hs
    constructor
    · rintro ⟨h1, h2, -⟩
      omega
    · intro e
      exact ⟨by omega, by omega, hb⟩
  · next hroot =>
    rw [if_neg hroot, ← hs.1]
    constructor
    · rintro ⟨-, -, hb⟩
      exact hb
    · intro hb
      rw [hs.2 hb]
      exact ⟨hh, hcs, hb⟩

/-- The root keeps its stored height, so its height is right only if it is the same. -/
theorem Shrinks.of_stays {a' p' i' : Word} {left' right' : TreeNode} (hb : (node a p i ht left right).Balanced)
    (hroot : unlinksRoot (.node a p i ht left right) pid = false)
    (hstays : (node a' p' i' ht left' right').Balanced ↔ unlinksEvenly (.node a p i ht left right) pid = true) :
    Shrinks (.node a p i ht left right) (.node a' p' i' ht left' right') pid := by
  unfold Shrinks
  rw [hroot, if_neg (by simp)]
  refine ⟨hstays, fun hb' => ?_⟩
  have h1 : ht.toNat = (node a' p' i' ht left' right').height := hb'.1
  have h2 : ht.toNat = (node a p i ht left right).height := hb.1
  exact h1.symm.trans h2

theorem unlinksRoot_ne (hp : p ≠ pid) : unlinksRoot (.node a p i ht left right) pid = false := by
  unfold unlinksRoot
  split
  · next e =>
    cases e
    simpa using hp
  · next e =>
    cases e
    simpa using hp
  · rfl

theorem unlinksRoot_two (hl : left ≠ .null) (hr : right ≠ .null) :
    unlinksRoot (.node a p i ht left right) pid = false := by
  unfold unlinksRoot
  split
  · next e =>
    cases e
    exact absurd rfl hl
  · next e =>
    cases e
    exact absurd rfl hr
  · rfl

/-! ## Deletion -/

theorem delete_shrinks (hb : t.Balanced) (hd : delete h t pid = some (t', h')) : Shrinks t t' pid := by
  induction t generalizing h h' t' pid with
  | null =>
    cases hd
    exact ⟨iff_of_true trivial rfl, fun _ => rfl⟩
  | node a p i ht left right ihl ihr =>
    obtain ⟨hh, hlr, hl, hr⟩ := hb
    have hb : (node a p i ht left right).Balanced := ⟨hh, hlr, hl, hr⟩
    have heven : balanceFactor (.node a p i ht left right) = 0 ↔ _ := balanceFactor_zero hl hr
    have hleft {q : Word} {left' : TreeNode} (hs : Shrinks left left' q) := hs.stays hh hlr (decide_eq_true_iff.trans heven)
    have hright {q : Word} {right' : TreeNode} (hs : Shrinks right right' q) :=
      hs.stays (by rw [hh, Nat.max_comm]) hlr.symm (decide_eq_true_iff.trans (heven.trans eq_comm))
    by_cases hp : p = pid
    · subst hp
      by_cases hone : left = .null ∨ right = .null
      · -- the root goes, and its only child takes its place
        have hroot : unlinksRoot (.node a p i ht left right) p = true := by
          rcases hone with rfl | rfl
          · simp [unlinksRoot]
          · cases left <;> simp [unlinksRoot]
        unfold Shrinks
        rw [if_pos hroot]
        obtain ⟨child, hchild⟩ : ∃ child, left = .null ∧ child = right ∨ right = .null ∧ child = left := by
          rcases hone with e | e
          · exact ⟨right, .inl ⟨e, rfl⟩⟩
          · exact ⟨left, .inr ⟨e, rfl⟩⟩
        rw [delete_here hchild] at hd
        obtain ⟨h1, -, hd⟩ := Option.map_eq_some_iff.1 hd
        cases hd
        rcases hchild with ⟨rfl, rfl⟩ | ⟨rfl, rfl⟩
        · refine ⟨hr, ?_⟩
          simp only [height]
          omega
        · refine ⟨hl, ?_⟩
          simp only [height]
          omega
      · have hone' := hone
        rw [not_or] at hone'
        obtain ⟨⟨pid', idx'⟩, hpred⟩ := rightmost_some left hone'.1
        rw [delete_two hone'.1 hone'.2 hpred] at hd
        obtain ⟨⟨left', h1⟩, hdel, hd⟩ := Option.map_eq_some_iff.1 hd
        cases hd
        refine .of_stays hb (unlinksRoot_two hone'.1 hone'.2) ?_
        rw [unlinksEvenly, if_pos rfl, if_neg hone, hpred]
        refine Iff.trans ?_ (hleft (ihl hl hdel))
        exact ⟨fun ⟨h1, h2, h3, _⟩ => ⟨h1, h2, h3⟩, fun ⟨h1, h2, h3⟩ => ⟨h1, h2, h3, hr⟩⟩
    · by_cases hgt : p < pid
      · rw [delete_right hgt] at hd
        obtain ⟨⟨right', h1⟩, hdel, hd⟩ := Option.map_eq_some_iff.1 hd
        cases hd
        refine .of_stays hb (unlinksRoot_ne hp) ?_
        rw [unlinksEvenly, if_neg hp, if_pos hgt]
        refine Iff.trans ?_ (hright (ihr hr hdel))
        constructor
        · rintro ⟨h1, h2, -, h4⟩
          exact ⟨by rw [h1, Nat.max_comm], h2.symm, h4⟩
        · rintro ⟨h1, h2, h4⟩
          exact ⟨by rw [h1, Nat.max_comm], h2.symm, hl, h4⟩
      · have hlt : pid < p := by bv_omega
        rw [delete_left hlt] at hd
        obtain ⟨⟨left', h1⟩, hdel, hd⟩ := Option.map_eq_some_iff.1 hd
        cases hd
        refine .of_stays hb (unlinksRoot_ne hp) ?_
        rw [unlinksEvenly, if_neg hp, if_neg hgt]
        refine Iff.trans ?_ (hleft (ihl hl hdel))
        exact ⟨fun ⟨h1, h2, h3, _⟩ => ⟨h1, h2, h3⟩, fun ⟨h1, h2, h3⟩ => ⟨h1, h2, h3, hr⟩⟩

theorem unlinksEvenly_root (h : unlinksRoot t pid = true) : unlinksEvenly t pid = true := by
  cases t with
  | null => rfl
  | node a p i ht left right =>
    have hp : p = pid := by
      by_contra hp
      rw [unlinksRoot_ne hp] at h
      cases h
    have hone : left = .null ∨ right = .null := by
      by_contra hone
      rw [not_or] at hone
      rw [unlinksRoot_two hone.1 hone.2] at h
      cases h
    rw [unlinksEvenly, if_pos hp, if_pos hone]

/-! ## Results -/

/-- `delete` keeps an AVL tree one exactly when the node it unlinks is the root
or has a parent with balance factor 0, or when there is nothing to delete. -/
theorem delete_avl_iff (ht : t.Avl) (hd : delete h t pid = some (t', h')) : t'.Avl ↔ unlinksEvenly t pid = true := by
  have hs := delete_shrinks ht.balanced hd
  have hord := (delete_drops ht.ordered hd).2
  unfold Shrinks at hs
  split at hs
  · next hroot => exact iff_of_true ⟨hord, hs.1⟩ (unlinksEvenly_root hroot)
  · rw [← hs.1]
    exact ⟨fun h => h.balanced, fun h => ⟨hord, h⟩⟩

/-- The map after the insertion of some pids, each as its own index. -/
def mapOf (pids : List Word) : Option (TreeNode × Heap) :=
  pids.foldlM (fun (t, h) pid => insert h t pid pid) (.null, kmeminit 0x20000 ⟨fun _ => 0, 0⟩)

/-- Pid 1 has a sibling of the same height. -/
theorem delete_avl_iff_3_pids :
    ∃ t h t' h', mapOf [2, 1, 3] = some (t, h) ∧ delete h t 1 = some (t', h') ∧ lookup t' 1 = none ∧ t'.Avl := by
  have hrun : ((mapOf [2, 1, 3]).any fun r => decide (r.1.Avl ∧ unlinksEvenly r.1 1 = true) &&
      (delete r.2 r.1 1).any fun r' => (lookup r'.1 1).isNone) = true := by decide +kernel
  obtain ⟨⟨t, h⟩, hmap, hrun⟩ := (Option.any_eq_true _ _).1 hrun
  obtain ⟨havl, hrun⟩ := Bool.and_eq_true_iff.1 hrun
  obtain ⟨⟨t', h'⟩, hdel, hnone⟩ := (Option.any_eq_true _ _).1 hrun
  obtain ⟨havl, heven⟩ := of_decide_eq_true havl
  exact ⟨t, h, t', h', hmap, hdel, Option.isNone_iff_eq_none.1 hnone, (delete_avl_iff havl hdel).2 heven⟩

/-- Of two pids the second is deleted: the root is a leaf then, and its stored
height is still 2. -/
theorem delete_unbalances : ¬∀ h h' t t' pid, TreeNode.Avl t → delete h t pid = some (t', h') → t'.Avl := by
  intro hall
  have hrun : ((mapOf [1, 2]).any fun r => decide r.1.Avl && (delete r.2 r.1 2).any fun r' => !decide r'.1.Avl) = true := by
    decide +kernel
  obtain ⟨⟨t, h⟩, -, hrun⟩ := (Option.any_eq_true _ _).1 hrun
  obtain ⟨havl, hrun⟩ := Bool.and_eq_true_iff.1 hrun
  obtain ⟨⟨t', h'⟩, hdel, hnot⟩ := (Option.any_eq_true _ _).1 hrun
  have havl' := hall h h' t t' 2 (of_decide_eq_true havl) hdel
  simp [havl'] at hnot

end Xeros
