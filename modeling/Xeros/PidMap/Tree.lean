import Xeros.Lib.Assoc
import Xeros.Model.PidMap
/-!
# The pid map as a search tree

Read from left to right, an ordered tree is a sorted list of pids and indices
(`TreeNode.entries`), and `lookup` finds exactly its entries. `insert` sets one
as long as it does not turn a subtree to the right: `rotateLeft` keeps the
entries of a tree, `rotateRight` loses some.
-/

namespace Xeros

open Assoc TreeNode

instance : IsStrictOrder Word (· < ·) where
  irrefl := BitVec.lt_irrefl
  trans _ _ _ := BitVec.lt_trans

namespace TreeNode

/-- The pids and indices from left to right. -/
def entries : TreeNode → List (Word × Word)
  | .null => []
  | .node _ p i _ left right => left.entries ++ (p, i) :: right.entries

def Ordered (t : TreeNode) : Prop := Sorted t.entries

theorem ordered_node {a p i h : Word} {left right : TreeNode} (ho : (node a p i h left right).Ordered) :
    left.Ordered ∧ right.Ordered := by
  obtain ⟨hl, hr, -⟩ := sorted_around.1 ho
  exact ⟨hl, hr⟩

end TreeNode

/-! ## Lookups -/

theorem lookup_iff {t : TreeNode} (ho : t.Ordered) (q v : Word) : lookup t q = some v ↔ (q, v) ∈ t.entries := by
  induction t with
  | null => simp [lookup, entries]
  | node a p i h left right ihl ihr =>
    obtain ⟨hl, hr⟩ := ordered_node ho
    obtain ⟨-, -, hlt, hgt, -⟩ := sorted_around.1 ho
    have hleft : (q, v) ∈ left.entries → q < p := hlt _
    have hright : (q, v) ∈ right.entries → p < q := hgt _
    unfold lookup entries
    rw [List.mem_append, List.mem_cons, Prod.mk.injEq]
    by_cases hp : p = q
    · subst hp
      have h1 : (p, v) ∉ left.entries := fun hm => ne_of_lt (hleft hm) rfl
      have h2 : (p, v) ∉ right.entries := fun hm => ne_of_lt (hright hm) rfl
      simp [h1, h2, eq_comm]
    · rw [if_neg hp]
      by_cases hq : p < q
      · have h1 : (q, v) ∉ left.entries := fun hm => ne_of_lt (lt_trans hq (hleft hm)) rfl
        simp [hq, ihr hr, h1, Ne.symm hp]
      · have h2 : (q, v) ∉ right.entries := fun hm => hq (hright hm)
        simp [hq, ihl hl, h2, Ne.symm hp]

theorem lookup_none {t : TreeNode} (ho : t.Ordered) {q : Word} (h : ∀ v, (q, v) ∉ t.entries) : lookup t q = none := by
  cases hl : lookup t q with
  | none => rfl
  | some v => exact absurd ((lookup_iff ho q v).1 hl) (h v)

/-! ## Rotations -/

@[simp] theorem entries_updateHeight (t : TreeNode) : (updateHeight t).entries = t.entries := by
  cases t <;> rfl

@[simp] theorem entries_rotateLeft (t : TreeNode) : (rotateLeft t).entries = t.entries := by
  cases t with
  | null => rfl
  | node a p i h left right =>
    cases right with
    | null => rfl
    | node a' p' i' h' left' right' => simp [rotateLeft, entries]

/-- `insert` calls `rotateRight` on its way up at a node with these subtrees. -/
def turnsRight : TreeNode → Bool
  | .null => false
  | .node a p i h left right =>
    decide (1 < balanceFactor (.node a p i h left right)) ||
      decide (balanceFactor (.node a p i h left right) < -1 ∧ 0 < balanceFactor right)

theorem entries_rebalance {t : TreeNode} (ht : turnsRight t = false) : (rebalance t).entries = t.entries := by
  cases t with
  | null => rfl
  | node a p i h left right =>
    simp only [turnsRight, Bool.or_eq_false_iff, decide_eq_false_iff_not, not_and] at ht
    obtain ⟨h1, h2⟩ := ht
    rw [rebalance, if_neg h1]
    split
    · next hb => rw [if_neg (h2 hb), entries_rotateLeft]
    · rfl

/-! ## The shape of a tree

Which way `insert` turns depends on pids and heights only. -/

/-- A tree without addresses and indices. -/
def TreeNode.shape : TreeNode → TreeNode
  | .null => .null
  | .node _ p _ h left right => .node 0 p 0 h left.shape right.shape

@[simp] theorem heightOf_shape (t : TreeNode) : t.shape.heightOf = t.heightOf := by
  cases t <;> rfl

@[simp] theorem balanceFactor_shape (t : TreeNode) : balanceFactor t.shape = balanceFactor t := by
  cases t <;> simp [shape, balanceFactor]

@[simp] theorem shape_updateHeight (t : TreeNode) : (updateHeight t).shape = updateHeight t.shape := by
  cases t <;> simp [shape, updateHeight]

@[simp] theorem shape_rotateLeft (t : TreeNode) : (rotateLeft t).shape = rotateLeft t.shape := by
  cases t with
  | null => rfl
  | node a p i h left right => cases right <;> simp [rotateLeft, shape]

@[simp] theorem shape_rotateRight (t : TreeNode) : (rotateRight t).shape = rotateRight t.shape := by
  cases t with
  | null => rfl
  | node a p i h left right => cases left <;> simp [rotateRight, shape]

@[simp] theorem shape_rebalance (t : TreeNode) : (rebalance t).shape = rebalance t.shape := by
  cases t with
  | null => rfl
  | node a p i h left right =>
    have hb := balanceFactor_shape (.node a p i h left right)
    rw [shape] at hb ⊢
    rw [rebalance, rebalance, hb, balanceFactor_shape, balanceFactor_shape]
    split
    · rw [shape_rotateRight, shape]
      split <;> simp
    · split
      · rw [shape_rotateLeft, shape]
        split <;> simp
      · rfl

theorem turnsRight_shape (t : TreeNode) : turnsRight t.shape = turnsRight t := by
  cases t with
  | null => rfl
  | node a p i h left right =>
    have hb := balanceFactor_shape (.node a p i h left right)
    rw [shape] at hb ⊢
    rw [turnsRight, turnsRight, hb, balanceFactor_shape]

/-- The shape of a tree after the insertion of `pid`. -/
def grown : TreeNode → Word → TreeNode
  | .null, pid => .node 0 pid 0 1 .null .null
  | .node _ p _ h left right, pid =>
    if pid > p then rebalance (updateHeight (.node 0 p 0 h left.shape (grown right pid)))
    else if pid < p then rebalance (updateHeight (.node 0 p 0 h (grown left pid) right.shape))
    else .node 0 p 0 h left.shape right.shape

/-- The insertion of `pid` turns some subtree to the right. -/
def insertTurnsRight : TreeNode → Word → Bool
  | .null, _ => false
  | .node _ p _ h left right, pid =>
    if pid > p then
      insertTurnsRight right pid || turnsRight (updateHeight (.node 0 p 0 h left.shape (grown right pid)))
    else if pid < p then
      insertTurnsRight left pid || turnsRight (updateHeight (.node 0 p 0 h (grown left pid) right.shape))
    else false

theorem insert_shape {h h' : Heap} {t t' : TreeNode} {pid idx : Word} (hi : insert h t pid idx = some (t', h')) :
    t'.shape = grown t pid := by
  induction t generalizing h h' t' with
  | null =>
    simp only [insert, Option.bind_eq_bind, Option.bind_eq_some_iff] at hi
    obtain ⟨⟨a, h1⟩, -, hi⟩ := hi
    split at hi
    · cases hi
    · cases hi
      rfl
  | node a p i ht left right ihl ihr =>
    unfold insert at hi
    unfold grown
    split at hi
    · next hp =>
      obtain ⟨⟨r, h1⟩, hr, hi⟩ := Option.bind_eq_some_iff.1 hi
      cases hi
      rw [if_pos hp, ← ihr hr]
      simp [shape]
    · next hp =>
      rw [if_neg hp]
      split at hi
      · next hp' =>
        obtain ⟨⟨l, h1⟩, hl, hi⟩ := Option.bind_eq_some_iff.1 hi
        cases hi
        rw [if_pos hp', ← ihl hl]
        simp [shape]
      · next hp' =>
        cases hi
        rw [if_neg hp', shape]

/-! ## Insertion -/

/-- An insertion that turns nothing to the right sets one entry. -/
theorem insert_sets {h h' : Heap} {t t' : TreeNode} {pid idx : Word} (ho : t.Ordered)
    (hr : insertTurnsRight t pid = false) (hi : insert h t pid idx = some (t', h')) :
    Sets pid idx t.entries t'.entries ∧ t'.Ordered := by
  induction t generalizing h h' t' with
  | null =>
    simp only [insert, Option.bind_eq_bind, Option.bind_eq_some_iff] at hi
    obtain ⟨⟨a, h1⟩, -, hi⟩ := hi
    split at hi
    · cases hi
    · cases hi
      refine ⟨fun q w => ?_, List.pairwise_singleton _ _⟩
      simp [entries]
  | node a p i ht left right ihl ihr =>
    obtain ⟨hl, hr'⟩ := ordered_node ho
    unfold insert at hi
    unfold insertTurnsRight at hr
    split at hi
    · next hp =>
      obtain ⟨⟨r, h1⟩, hins, hi⟩ := Option.bind_eq_some_iff.1 hi
      cases hi
      rw [if_pos hp, Bool.or_eq_false_iff, ← insert_shape hins] at hr
      obtain ⟨hset, hord⟩ := ihr hr' hr.1 hins
      have hturn : turnsRight (updateHeight (.node a p i ht left r)) = false := by
        rw [← turnsRight_shape, shape_updateHeight]
        exact hr.2
      unfold Ordered
      rw [entries_rebalance hturn, entries_updateHeight]
      exact hset.right ho hp hord
    · next hp =>
      rw [if_neg hp] at hr
      split at hi
      · next hp' =>
        obtain ⟨⟨l, h1⟩, hins, hi⟩ := Option.bind_eq_some_iff.1 hi
        cases hi
        rw [if_pos hp', Bool.or_eq_false_iff, ← insert_shape hins] at hr
        obtain ⟨hset, hord⟩ := ihl hl hr.1 hins
        have hturn : turnsRight (updateHeight (.node a p i ht l right)) = false := by
          rw [← turnsRight_shape, shape_updateHeight]
          exact hr.2
        unfold Ordered
        rw [entries_rebalance hturn, entries_updateHeight]
        exact hset.left ho hp' hord
      · next hp' =>
        cases hi
        obtain rfl : pid = p := by bv_omega
        exact Sets.here ho

end Xeros
