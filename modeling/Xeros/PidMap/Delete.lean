import Xeros.PidMap.Tree
/-!
# `delete`

`delete` of a pid that is in the tree unlinks one node and frees it: the node
with the pid, or its predecessor when the node has two children and takes over
the predecessor's entry. The stored heights play no part in this.
-/

namespace Xeros

open Assoc TreeNode

variable {h : Heap} {t t' : TreeNode} {a p i ht pid : Word} {left right : TreeNode}

/-- The addresses of the nodes from left to right. -/
def TreeNode.addrs : TreeNode → List Word
  | .null => []
  | .node a _ _ _ left right => left.addrs ++ a :: right.addrs

/-- `delete` of `pid` leaves `t'` and frees one node of `t`; it fails only when
that `kfree` does. -/
def FreesOne (h : Heap) (t t' : TreeNode) (pid : Word) : Prop :=
  ∃ a, t.addrs.Perm (a :: t'.addrs) ∧ delete h t pid = (kfree h a).map fun h' => (t', h')

/-- What a deletion comes to. -/
def Deletes (h : Heap) (t t' : TreeNode) (pid : Word) : Prop :=
  ((∀ v, (pid, v) ∉ t.entries) ∧ t' = t ∧ delete h t pid = some (t, h)) ∨
    ((∃ v, (pid, v) ∈ t.entries) ∧ FreesOne h t t' pid)

/-! ## The predecessor -/

theorem rightmost_entries {t : TreeNode} {e : Word × Word} (h : rightmost t = some e) : ∃ xs, t.entries = xs ++ [e] := by
  induction t with
  | null => cases h
  | node a p i ht left right _ ihr =>
    cases right with
    | null =>
      rw [rightmost, Option.some.injEq] at h
      exact ⟨left.entries, by simp [entries, h]⟩
    | node a' p' i' ht' left' right' =>
      obtain ⟨xs, hxs⟩ := ihr h
      exact ⟨left.entries ++ (p, i) :: xs, by rw [entries, hxs]; simp⟩

theorem rightmost_some (t : TreeNode) (ht : t ≠ .null) : ∃ e, rightmost t = some e := by
  induction t with
  | null => exact absurd rfl ht
  | node a p i h left right _ ihr =>
    cases right with
    | null => exact ⟨(p, i), rfl⟩
    | node a' p' i' h' left' right' => exact ihr (by simp)

/-- A node with two children takes over the entry in front of its own, which is
deleted below it. -/
theorem drops_predecessor {xs ls rs : List (Word × Word)} {e f : Word × Word} (ho : Sorted ((xs ++ [e]) ++ f :: rs))
    (hd : Drops e.1 (xs ++ [e]) ls) (hs : Sorted ls) :
    Drops f.1 ((xs ++ [e]) ++ f :: rs) (ls ++ e :: rs) ∧ Sorted (ls ++ e :: rs) := by
  obtain ⟨hl, hr, hlf, hfr, -⟩ := sorted_around.1 ho
  have hef : e.1 < f.1 := hlf e (by simp)
  have hxe : ∀ x ∈ ls, x.1 < e.1 := by
    intro x hx
    obtain ⟨hne, hm⟩ := hd.sub hx
    rcases List.mem_append.1 hm with hm | hm
    · exact (List.pairwise_append.1 hl).2.2 x hm e (by simp)
    · rw [List.mem_singleton.1 hm] at hne
      exact absurd rfl hne
  refine ⟨fun q w => ?_, sorted_around.2 ⟨hs, hr, hxe, fun y hy => lt_trans hef (hfr y hy), fun x hx y hy => ?_⟩⟩
  · rw [← (Drops.here ho).1 q w, List.mem_append, List.mem_append, List.mem_cons, hd q w]
    have hunique : q = e.1 → (q, w) ∈ xs ++ [e] → (q, w) = e := fun hq hm =>
      Prod.ext hq (hl.unique hm (by simp [hq]))
    have he : e ∈ xs ++ [e] := by simp
    grind
  · exact lt_trans (hxe x hx) (lt_trans hef (hfr y hy))

/-! ## One node -/

/-- A node with at most one child. -/
theorem delete_here {child : TreeNode} (hc : left = .null ∧ child = right ∨ right = .null ∧ child = left) :
    delete h (.node a p i ht left right) p = (kfree h a).map fun h' => (child, h') := by
  unfold delete
  rw [if_pos rfl]
  rcases hc with ⟨rfl, rfl⟩ | ⟨rfl, rfl⟩
  · cases kfree h a <;> rfl
  · cases child with
    | null => cases kfree h a <;> rfl
    | node a' p' i' h' left' right' => cases kfree h a <;> rfl

/-- A node with two children. -/
theorem delete_two {pid' idx' : Word} (hl : left ≠ .null) (hr : right ≠ .null)
    (hpred : rightmost left = some (pid', idx')) :
    delete h (.node a p i ht left right) p =
      (delete h left pid').map fun r => (.node a pid' idx' ht r.1 right, r.2) := by
  cases left with
  | null => exact absurd rfl hl
  | node al pl il hl' ll lr =>
    cases right with
    | null => exact absurd rfl hr
    | node ar pr ir hr' rl rr =>
      conv_lhs => unfold delete
      rw [if_pos rfl]
      change (rightmost _).bind _ = _
      rw [hpred, Option.bind_some, Option.map_eq_bind]
      rfl

theorem delete_right (hp : p < pid) : delete h (.node a p i ht left right) pid =
    (delete h right pid).map fun r => (.node a p i ht left r.1, r.2) := by
  have hne : p ≠ pid := ne_of_lt hp
  conv_lhs => unfold delete
  rw [if_neg hne, if_pos hp, Option.map_eq_bind]
  rfl

theorem delete_left (hp : pid < p) : delete h (.node a p i ht left right) pid =
    (delete h left pid).map fun r => (.node a p i ht r.1 right, r.2) := by
  have hne : p ≠ pid := (ne_of_lt hp).symm
  have hgt : ¬p < pid := fun hgt => ne_of_lt (lt_trans hp hgt) rfl
  conv_lhs => unfold delete
  rw [if_neg hne, if_neg hgt, Option.map_eq_bind]
  rfl

/-! ## All of the tree -/

/-- A deletion in a subtree frees one node of the whole tree. -/
theorem FreesOne.in_left {left' : TreeNode} {p' i' pid' : Word} (hf : FreesOne h left left' pid')
    (hd : delete h (.node a p i ht left right) pid =
      (delete h left pid').map fun r => (.node a p' i' ht r.1 right, r.2)) :
    FreesOne h (.node a p i ht left right) (.node a p' i' ht left' right) pid := by
  obtain ⟨b, hperm, hdel⟩ := hf
  refine ⟨b, hperm.append_right _, ?_⟩
  rw [hd, hdel, Option.map_map]
  rfl

theorem FreesOne.in_right {right' : TreeNode} (hf : FreesOne h right right' pid)
    (hd : delete h (.node a p i ht left right) pid =
      (delete h right pid).map fun r => (.node a p i ht left r.1, r.2)) :
    FreesOne h (.node a p i ht left right) (.node a p i ht left right') pid := by
  obtain ⟨b, hperm, hdel⟩ := hf
  refine ⟨b, ?_, ?_⟩
  · refine ((hperm.cons a).append_left left.addrs).trans ?_
    refine ((List.Perm.swap b a right'.addrs).append_left left.addrs).trans ?_
    exact List.perm_middle
  · rw [hd, hdel, Option.map_map]
    rfl

/-- In a tree in search order `delete` drops the pid, and finds every node it
looks for. -/
theorem deletes (h : Heap) (ho : t.Ordered) (pid : Word) :
    ∃ t', Deletes h t t' pid ∧ Drops pid t.entries t'.entries ∧ t'.Ordered := by
  induction t generalizing pid with
  | null =>
    refine ⟨.null, .inl ⟨fun v hv => ?_, rfl, rfl⟩, fun q w => by simp [entries], ho⟩
    cases hv
  | node a p i ht left right ihl ihr =>
    obtain ⟨hl, hr⟩ := ordered_node ho
    obtain ⟨-, -, hbelow, habove, -⟩ := sorted_around.1 ho
    by_cases hp : p = pid
    · subst hp
      have hmem : ∃ v, (p, v) ∈ (node a p i ht left right).entries := ⟨i, by simp [entries]⟩
      have hhere := Drops.here ho
      by_cases hln : left = .null
      · subst hln
        exact ⟨right, .inr ⟨hmem, a, .refl _, delete_here (.inl ⟨rfl, rfl⟩)⟩, hhere⟩
      by_cases hrn : right = .null
      · subst hrn
        rw [show TreeNode.null.entries = [] from rfl, List.append_nil] at hhere
        exact ⟨left, .inr ⟨hmem, a, List.perm_append_comm, delete_here (.inr ⟨rfl, rfl⟩)⟩, hhere⟩
      -- the predecessor's entry is in the left subtree, so one node goes there
      obtain ⟨⟨pid', idx'⟩, hpred⟩ := rightmost_some left hln
      obtain ⟨xs, hxs⟩ := rightmost_entries hpred
      have hin : (pid', idx') ∈ left.entries := by
        rw [hxs]
        exact List.mem_append_right _ (List.mem_singleton_self _)
      obtain ⟨left', hdel, hdrop, hord⟩ := ihl hl pid'
      have hfree : FreesOne h left left' pid' := by
        rcases hdel with ⟨hnone, -⟩ | ⟨-, hf⟩
        · exact absurd hin (hnone idx')
        · exact hf
      refine ⟨node a pid' idx' ht left' right, .inr ⟨hmem, hfree.in_left (delete_two hln hrn hpred)⟩, ?_⟩
      unfold Ordered at ho ⊢
      rw [entries, hxs] at ho ⊢
      rw [hxs] at hdrop
      exact drops_predecessor ho hdrop hord
    · by_cases hgt : p < pid
      · obtain ⟨right', hdel, hdrop, hord⟩ := ihr hr pid
        obtain ⟨hdrops, hord'⟩ := hdrop.right ho hgt hord
        have hd : delete h (.node a p i ht left right) pid = _ := delete_right hgt
        refine ⟨node a p i ht left right', ?_, hdrops, hord'⟩
        rcases hdel with ⟨hnone, rfl, hdel⟩ | ⟨⟨v, hv⟩, hf⟩
        · refine .inl ⟨fun v hv => ?_, rfl, by rw [hd, hdel]; rfl⟩
          rcases List.mem_append.1 hv with hv | hv
          · exact ne_of_lt (lt_trans hgt (hbelow _ hv)) rfl
          · rcases List.mem_cons.1 hv with e | hv
            · exact hp (congrArg Prod.fst e).symm
            · exact hnone v hv
        · exact .inr ⟨⟨v, List.mem_append_right _ (List.mem_cons_of_mem _ hv)⟩, hf.in_right hd⟩
      · have hlt : pid < p := by bv_omega
        obtain ⟨left', hdel, hdrop, hord⟩ := ihl hl pid
        obtain ⟨hdrops, hord'⟩ := hdrop.left ho hlt hord
        have hd : delete h (.node a p i ht left right) pid = _ := delete_left hlt
        refine ⟨node a p i ht left' right, ?_, hdrops, hord'⟩
        rcases hdel with ⟨hnone, rfl, hdel⟩ | ⟨⟨v, hv⟩, hf⟩
        · refine .inl ⟨fun v hv => ?_, rfl, by rw [hd, hdel]; rfl⟩
          rcases List.mem_append.1 hv with hv | hv
          · exact hnone v hv
          · rcases List.mem_cons.1 hv with e | hv
            · exact hp (congrArg Prod.fst e).symm
            · exact ne_of_lt (lt_trans hlt (habove _ hv)) rfl
        · exact .inr ⟨⟨v, List.mem_append_left _ hv⟩, hf.in_left hd⟩

theorem delete_drops {h' : Heap} (ho : t.Ordered) (hd : delete h t pid = some (t', h')) :
    Drops pid t.entries t'.entries ∧ t'.Ordered := by
  obtain ⟨t1, hdel, hdrop⟩ := deletes h ho pid
  have e : t1 = t' := by
    rcases hdel with ⟨-, rfl, hdel⟩ | ⟨-, a, -, hdel⟩
    · rw [hdel] at hd
      cases hd
      rfl
    · rw [hdel] at hd
      obtain ⟨h1, -, hd⟩ := Option.map_eq_some_iff.1 hd
      cases hd
      rfl
  exact e ▸ hdrop

/-! ## Result -/

/-- From a tree in search order, whatever its shape and its stored heights,
`delete` takes the pid and nothing else, and frees one node if the pid was
there and none otherwise. -/
theorem delete_removes (h : Heap) (ho : t.Ordered) (pid : Word) : ∃ t', t'.Ordered ∧
    (∀ q v, lookup t' q = some v ↔ q ≠ pid ∧ lookup t q = some v) ∧
    (lookup t pid = none ∧ t' = t ∧ delete h t pid = some (t, h) ∨
      (lookup t pid).isSome ∧ FreesOne h t t' pid) := by
  obtain ⟨t', hdel, hdrop, hord⟩ := deletes h ho pid
  refine ⟨t', hord, fun q v => ?_, ?_⟩
  · rw [lookup_iff hord, lookup_iff ho]
    exact hdrop q v
  · rcases hdel with ⟨hnone, hdel⟩ | ⟨⟨v, hv⟩, hf⟩
    · exact .inl ⟨lookup_none ho hnone, hdel⟩
    · refine .inr ⟨?_, hf⟩
      rw [(lookup_iff ho pid v).2 hv]
      rfl

/-- A root with two children; the heights are wrong. -/
def unevenTree : TreeNode := .node 0x20030 2 20 7 (.node 0x20010 1 10 5 .null .null) (.node 0x20050 3 30 0 .null .null)

theorem delete_removes_two_children : ∃ t', t'.Ordered ∧ lookup t' 1 = some 10 ∧ lookup t' 2 ≠ some 20 ∧
    FreesOne ⟨fun _ => 0, 0⟩ unevenTree t' 2 := by
  have ho : unevenTree.Ordered := by simp [Ordered, Sorted, entries, unevenTree]
  obtain ⟨t', hord, hlookup, hdel⟩ := delete_removes ⟨fun _ => 0, 0⟩ ho 2
  refine ⟨t', hord, (hlookup 1 10).2 ⟨by decide, by decide⟩, fun h2 => ((hlookup 2 20).1 h2).1 rfl, ?_⟩
  rcases hdel with ⟨hnone, -⟩ | ⟨-, hf⟩
  · exact absurd hnone (by decide)
  · exact hf

end Xeros
