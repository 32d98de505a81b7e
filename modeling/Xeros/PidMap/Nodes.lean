import Xeros.PidMap.Delete
import Xeros.Procs.Frames
/-!
# The nodes of the pid map

An insertion allocates one node and a deletion frees one. `rotateRight` takes
nodes out of the tree and frees none of them: an insertion that turns to the
right leaks memory (`insert_nodes`).
-/

namespace Xeros

open TreeNode

variable {t t' : TreeNode} {a p i ht pid : Word} {left right : TreeNode}

/-! ## Turns -/

@[simp] theorem addrs_updateHeight (t : TreeNode) : (updateHeight t).addrs = t.addrs := by
  cases t <;> rfl

@[simp] theorem addrs_rotateLeft (t : TreeNode) : (rotateLeft t).addrs = t.addrs := by
  cases t with
  | null => rfl
  | node a p i h left right =>
    cases right with
    | null => rfl
    | node a' p' i' h' left' right' => simp [rotateLeft, addrs]

/-- The node and what is right of it go. -/
theorem addrs_rotateRight (t : TreeNode) : ∃ dropped, t.addrs.Perm ((rotateRight t).addrs ++ dropped) := by
  cases t with
  | null => exact ⟨[], List.Perm.refl _⟩
  | node a p i h left right =>
    cases left with
    | null => exact ⟨[], by rw [List.append_nil]; rfl⟩
    | node a' p' i' h' left' right' =>
      refine ⟨a :: right.addrs, ?_⟩
      rw [rotateRight, addrs_updateHeight]
      exact List.Perm.refl _

/-- Subtrees are replaced by subtrees that have less. -/
theorem addrs_node_perm {left' right' : TreeNode} {ls rs : List Word} (hl : left.addrs.Perm (left'.addrs ++ ls))
    (hr : right.addrs.Perm (right'.addrs ++ rs)) :
    (node a p i ht left right).addrs.Perm ((node a p i ht left' right').addrs ++ (ls ++ rs)) := by
  refine (hl.append (hr.cons a)).trans (List.perm_iff_count.2 fun b => ?_)
  simp only [addrs, List.count_append, List.count_cons]
  omega

theorem addrs_rebalance (t : TreeNode) :
    ∃ dropped, t.addrs.Perm ((rebalance t).addrs ++ dropped) ∧ (turnsRight t = false → dropped = []) := by
  have hrefl (t : TreeNode) : t.addrs.Perm (t.addrs ++ []) := by rw [List.append_nil]
  cases t with
  | null => exact ⟨[], hrefl _, fun _ => rfl⟩
  | node a p i h left right =>
    rw [rebalance]
    split
    · next hb =>
      have hleft : left.addrs.Perm ((if balanceFactor left < 0 then rotateLeft left else left).addrs ++ []) := by
        split
        · rw [addrs_rotateLeft, List.append_nil]
        · exact hrefl _
      set left' := if balanceFactor left < 0 then rotateLeft left else left
      obtain ⟨dropped, hd⟩ := addrs_rotateRight (node a p i h left' right)
      refine ⟨dropped, ?_, fun ht => ?_⟩
      · have hn : (node a p i h left right).addrs.Perm ((node a p i h left' right).addrs ++ ([] ++ [])) :=
          addrs_node_perm hleft (hrefl right)
        rw [List.append_nil, List.append_nil] at hn
        exact hn.trans hd
      · simp only [turnsRight, Bool.or_eq_false_iff, decide_eq_false_iff_not] at ht
        exact absurd hb ht.1
    · split
      · next hb =>
        simp only [addrs_rotateLeft]
        by_cases hr : 0 < balanceFactor right
        · obtain ⟨dropped, hd⟩ := addrs_rotateRight right
          refine ⟨dropped, ?_, fun ht => ?_⟩
          · rw [if_pos hr]
            exact addrs_node_perm (hrefl left) hd
          · simp only [turnsRight, Bool.or_eq_false_iff, decide_eq_false_iff_not] at ht
            exact absurd ⟨hb, hr⟩ ht.2
        · rw [if_neg hr]
          exact ⟨[], hrefl _, fun _ => rfl⟩
      · exact ⟨[], hrefl _, fun _ => rfl⟩

/-! ## Insertions -/

/-- What the way up through a node drops comes to what was dropped below it. -/
theorem addrs_rebuild {xs ds : List Word} (h : xs.Perm (t.addrs ++ ds)) :
    ∃ es, xs.Perm ((rebalance (updateHeight t)).addrs ++ (es ++ ds)) ∧
      (turnsRight (updateHeight t.shape) = false → es = []) := by
  obtain ⟨es, hes, hturn⟩ := addrs_rebalance (updateHeight t)
  rw [addrs_updateHeight] at hes
  refine ⟨es, ?_, fun ht => hturn ?_⟩
  · rw [← List.append_assoc]
    exact h.trans (hes.append_right ds)
  · rwa [← turnsRight_shape, shape_updateHeight]

/-- A new pid gets one new node; nodes leave the tree only when it turns to the right. -/
theorem insert_nodes {h h' : Heap} {idx : Word} (hnew : lookup t pid = none) (hi : insert h t pid idx = some (t', h')) :
    ∃ a dropped, kmalloc h SIZEOF_TREENODE = some (a, h') ∧ a ≠ 0 ∧ (a :: t.addrs).Perm (t'.addrs ++ dropped) ∧
      (insertTurnsRight t pid = false → dropped = []) := by
  induction t generalizing t' with
  | null =>
    obtain ⟨⟨a, h1⟩, hm, hi⟩ := Option.bind_eq_some_iff.1 hi
    simp only [] at hi
    split at hi
    · cases hi
    · next h0 =>
      cases hi
      exact ⟨a, [], hm, h0, List.Perm.refl _, fun _ => rfl⟩
  | node b p i ht left right ihl ihr =>
    unfold lookup at hnew
    split at hnew
    · cases hnew
    next hne =>
    unfold insert at hi
    unfold insertTurnsRight
    split at hi
    · next hp =>
      rw [if_pos hp] at hnew
      obtain ⟨⟨r, h1⟩, hins, hi⟩ := Option.bind_eq_some_iff.1 hi
      cases hi
      obtain ⟨a, ds, hm, h0, hperm, hds⟩ := ihr hnew hins
      have hnode : (a :: (node b p i ht left right).addrs).Perm ((node b p i ht left r).addrs ++ ds) := by
        refine List.perm_iff_count.2 fun c => ?_
        have hc := hperm.count_eq c
        simp only [addrs, List.count_append, List.count_cons] at hc ⊢
        omega
      obtain ⟨es, hes, hturn⟩ := addrs_rebuild hnode
      refine ⟨a, es ++ ds, hm, h0, hes, fun hno => ?_⟩
      rw [if_pos hp, Bool.or_eq_false_iff, ← insert_shape hins] at hno
      rw [hds hno.1, hturn hno.2, List.append_nil]
    · next hp =>
      have hlt : pid < p := by bv_omega
      rw [if_neg hp] at hnew
      rw [if_pos hlt] at hi
      obtain ⟨⟨l, h1⟩, hins, hi⟩ := Option.bind_eq_some_iff.1 hi
      cases hi
      obtain ⟨a, ds, hm, h0, hperm, hds⟩ := ihl hnew hins
      have hnode : (a :: (node b p i ht left right).addrs).Perm ((node b p i ht l right).addrs ++ ds) := by
        have hn := hperm.append_right (b :: right.addrs)
        refine hn.trans (List.perm_iff_count.2 fun c => ?_)
        simp only [addrs, List.count_append, List.count_cons]
        omega
      obtain ⟨es, hes, hturn⟩ := addrs_rebuild hnode
      refine ⟨a, es ++ ds, hm, h0, hes, fun hno => ?_⟩
      rw [if_neg hp, if_pos hlt, Bool.or_eq_false_iff, ← insert_shape hins] at hno
      rw [hds hno.1, hturn hno.2, List.append_nil]

/-! ## Deletions -/

/-- The node that `delete` frees. -/
def deletedNode : TreeNode → Word → Option Word
  | .null, _ => none
  | .node a p i height left right, pid =>
    if p = pid then
      match left, right with
      | .null, _ | _, .null => some a
      | left, right => (predecessor (.node a p i height left right)).bind fun x => deletedNode left x.1
    else if pid > p then deletedNode right pid
    else deletedNode left pid

/-- `kfree` of a node, if there is one. -/
def freeNode (h : Heap) : Option Word → Option Heap
  | none => some h
  | some a => kfree h a

/-- What `delete` does to tree and heap. -/
theorem delete_nodes (t : TreeNode) (pid : Word) : ∃ t' : TreeNode,
    t.addrs.Perm ((deletedNode t pid).toList ++ t'.addrs) ∧
      ∀ h, delete h t pid = (freeNode h (deletedNode t pid)).map fun h' => (t', h') := by
  induction t generalizing pid with
  | null => exact ⟨.null, List.Perm.refl _, fun h => rfl⟩
  | node a p i ht left right ihl ihr =>
    by_cases hp : p = pid
    · subst hp
      by_cases hln : left = .null
      · subst hln
        have hd : deletedNode (node a p i ht .null right) p = some a := by
          unfold deletedNode
          rw [if_pos rfl]
        rw [hd]
        exact ⟨right, List.Perm.refl _, fun h => delete_here (.inl ⟨rfl, rfl⟩)⟩
      by_cases hrn : right = .null
      · subst hrn
        have hd : deletedNode (node a p i ht left .null) p = some a := by
          unfold deletedNode
          rw [if_pos rfl]
          cases left <;> rfl
        rw [hd]
        exact ⟨left, List.perm_append_comm, fun h => delete_here (.inr ⟨rfl, rfl⟩)⟩
      -- the node of the predecessor is freed
      obtain ⟨⟨pid', idx'⟩, hpred⟩ := rightmost_some left hln
      obtain ⟨left', hperm, hdel⟩ := ihl pid'
      have hd : deletedNode (node a p i ht left right) p = deletedNode left pid' := by
        cases left with
        | null => exact absurd rfl hln
        | node al pl il hl ll lr =>
          cases right with
          | null => exact absurd rfl hrn
          | node ar pr ir hr rl rr =>
            conv_lhs => unfold deletedNode
            rw [if_pos rfl]
            change (rightmost _).bind _ = _
            rw [hpred, Option.bind_some]
      rw [hd]
      refine ⟨node a pid' idx' ht left' right, ?_, fun h => ?_⟩
      · have hn := hperm.append_right (a :: right.addrs)
        rwa [List.append_assoc] at hn
      · rw [delete_two hln hrn hpred, hdel h, Option.map_map]
        rfl
    · by_cases hgt : p < pid
      · obtain ⟨right', hperm, hdel⟩ := ihr pid
        have hd : deletedNode (node a p i ht left right) pid = deletedNode right pid := by
          conv_lhs => unfold deletedNode
          rw [if_neg hp, if_pos hgt]
        rw [hd]
        refine ⟨node a p i ht left right', ?_, fun h => ?_⟩
        · refine List.perm_iff_count.2 fun c => ?_
          have h1 := hperm.count_eq c
          simp only [addrs, List.count_append, List.count_cons] at h1 ⊢
          omega
        · rw [delete_right hgt, hdel h, Option.map_map]
          rfl
      · obtain ⟨left', hperm, hdel⟩ := ihl pid
        have hlt : pid < p := by bv_omega
        have hd : deletedNode (node a p i ht left right) pid = deletedNode left pid := by
          conv_lhs => unfold deletedNode
          rw [if_neg hp, if_neg hgt]
        rw [hd]
        refine ⟨node a p i ht left' right, ?_, fun h => ?_⟩
        · have hn := hperm.append_right (a :: right.addrs)
          rwa [List.append_assoc] at hn
        · rw [delete_left hlt, hdel h, Option.map_map]
          rfl

end Xeros
