import Xeros.PidMap.Tree
/-!
# What the pid map keeps in every run

A turn to the right loses entries of the map but never makes one up: whatever
pids are inserted and deleted, every entry leads to a process in use that has
the pid (`MapSound`).
-/

namespace Xeros

open Assoc TreeNode

/-! ## Insertions that may turn to the right -/

theorem entries_rotateRight (t : TreeNode) : (rotateRight t).entries.Sublist t.entries := by
  cases t with
  | null => exact List.Sublist.refl _
  | node a p i h left right =>
    cases left with
    | null => exact List.Sublist.refl _
    | node a' p' i' h' left' right' =>
      rw [rotateRight, entries_updateHeight]
      exact List.sublist_append_left _ _

/-- Replacing subtrees by subtrees that hold less. -/
theorem entries_node_sublist {a p i h : Word} {left left' right right' : TreeNode}
    (hl : left'.entries.Sublist left.entries) (hr : right'.entries.Sublist right.entries) :
    (node a p i h left' right').entries.Sublist (node a p i h left right).entries :=
  hl.append (hr.cons_cons (p, i))

theorem entries_rebalance_sublist (t : TreeNode) : (rebalance t).entries.Sublist t.entries := by
  cases t with
  | null => exact List.Sublist.refl _
  | node a p i h left right =>
    rw [rebalance]
    split
    · refine (entries_rotateRight _).trans (entries_node_sublist ?_ (List.Sublist.refl _))
      split
      · rw [entries_rotateLeft]
      · exact List.Sublist.refl _
    · split
      · rw [entries_rotateLeft]
        refine entries_node_sublist (List.Sublist.refl _) ?_
        split
        · exact entries_rotateRight _
        · exact List.Sublist.refl _
      · exact List.Sublist.refl _

/-- An insertion sets one entry, and may lose others. -/
theorem insert_sublist {h h' : Heap} {t t' : TreeNode} {pid idx : Word} (ho : t.Ordered)
    (hi : insert h t pid idx = some (t', h')) :
    ∃ l, Sets pid idx t.entries l ∧ Sorted l ∧ t'.entries.Sublist l := by
  induction t generalizing h h' t' with
  | null =>
    obtain ⟨⟨a, h1⟩, -, hi⟩ := Option.bind_eq_some_iff.1 hi
    simp only [] at hi
    split at hi
    · cases hi
    · cases hi
      refine ⟨[(pid, idx)], fun q w => ?_, List.pairwise_singleton _ _, List.Sublist.refl _⟩
      simp [entries]
  | node a p i ht left right ihl ihr =>
    obtain ⟨hl, hr⟩ := ordered_node ho
    unfold insert at hi
    split at hi
    · next hp =>
      obtain ⟨⟨r, h1⟩, hins, hi⟩ := Option.bind_eq_some_iff.1 hi
      cases hi
      obtain ⟨l, hset, hsorted, hsub⟩ := ihr hr hins
      obtain ⟨hset', hsorted'⟩ := hset.right ho hp hsorted
      refine ⟨_, hset', hsorted', (entries_rebalance_sublist _).trans ?_⟩
      rw [entries_updateHeight]
      exact (List.Sublist.refl _).append (hsub.cons_cons (p, i))
    · split at hi
      · next hp =>
        obtain ⟨⟨r, h1⟩, hins, hi⟩ := Option.bind_eq_some_iff.1 hi
        cases hi
        obtain ⟨l, hset, hsorted, hsub⟩ := ihl hl hins
        obtain ⟨hset', hsorted'⟩ := hset.left ho hp hsorted
        refine ⟨_, hset', hsorted', (entries_rebalance_sublist _).trans ?_⟩
        rw [entries_updateHeight]
        exact hsub.append (List.Sublist.refl _)
      · cases hi
        obtain rfl : pid = p := by bv_omega
        obtain ⟨hset, hsorted⟩ := Sets.here (v := idx) ho
        exact ⟨_, hset, hsorted, List.Sublist.refl _⟩

/-! ## The map and the table -/

/-- Every entry of the map is the pid of a process in use, with its index. -/
structure MapSound (t : TreeNode) (pid : Idx → Word) (state : Idx → PState) : Prop where
  ordered : t.Ordered
  entries : ∀ q v, (q, v) ∈ t.entries → ∃ i, state i ≠ .STOPPED ∧ pid i = q ∧ v = pcbIndex i
  nonzero : ∀ i, state i ≠ .STOPPED → pid i ≠ 0

namespace MapSound
variable {t t' : TreeNode} {pid : Idx → Word} {state state' : Idx → PState} {p : Idx}

theorem empty (pid : Idx → Word) (h : ∀ i, state i = .STOPPED) : MapSound .null pid state := by
  refine ⟨List.Pairwise.nil, ?_, fun i hi => absurd (h i) hi⟩
  intro q v hm
  cases hm

theorem lookup (h : MapSound t pid state) {q v : Word} (hl : Xeros.lookup t q = some v) :
    ∃ i, state i ≠ .STOPPED ∧ pid i = q ∧ v = pcbIndex i :=
  h.entries q v ((lookup_iff h.ordered q v).1 hl)

/-- The same processes are in use. -/
theorem keep (h : MapSound t pid state) (hstate : ∀ i, state' i = .STOPPED ↔ state i = .STOPPED) :
    MapSound t pid state' := by
  refine ⟨h.ordered, ?_, fun i hi => h.nonzero i fun hs => hi ((hstate i).2 hs)⟩
  intro q v hm
  obtain ⟨i, hi, hpid, hv⟩ := h.entries q v hm
  exact ⟨i, fun hs => hi ((hstate i).1 hs), hpid, hv⟩

theorem update {st : PState} (h : MapSound t pid state) (hp : state p ≠ .STOPPED) (hst : st ≠ .STOPPED) :
    MapSound t pid (Function.update state p st) := by
  apply h.keep
  intro i
  by_cases hip : i = p
  · subst hip
    rw [Function.update_self]
    exact iff_of_false hst hp
  · rw [Function.update_of_ne hip]

/-- A process is put into use. -/
theorem add (h : MapSound t pid state) {r : Word} {st : PState} {hp hp' : Heap} (hstopped : state p = .STOPPED)
    (hr : r ≠ 0) (hst : st ≠ .STOPPED) (hins : insert hp t r (pcbIndex p) = some (t', hp')) :
    MapSound t' (Function.update pid p r) (Function.update state p st) := by
  obtain ⟨l, hset, hsorted, hsub⟩ := insert_sublist h.ordered hins
  refine ⟨hsorted.sublist hsub, ?_, ?_⟩
  rotate_left
  · intro i hi
    by_cases hip : i = p
    · subst hip
      rwa [Function.update_self]
    · rw [Function.update_of_ne hip] at hi ⊢
      exact h.nonzero i hi
  intro q v hm
  rcases (hset q v).1 (hsub.subset hm) with ⟨rfl, rfl⟩ | ⟨-, hm⟩
  · refine ⟨p, ?_, Function.update_self .., rfl⟩
    rwa [Function.update_self]
  · obtain ⟨i, hi, hpid, hv⟩ := h.entries q v hm
    have hip : i ≠ p := by
      rintro rfl
      exact hi hstopped
    refine ⟨i, ?_, ?_, hv⟩
    · rwa [Function.update_of_ne hip]
    · rwa [Function.update_of_ne hip]

/-- A process is taken out of use, and its pid out of the map. -/
theorem drop (h : MapSound t pid state) (hd : Drops (pid p) t.entries t'.entries) (ho : t'.Ordered) :
    MapSound t' pid (Function.update state p .STOPPED) := by
  refine ⟨ho, ?_, ?_⟩
  rotate_left
  · intro i hi
    apply h.nonzero i
    intro hs
    apply hi
    rw [Function.update_apply, hs, ite_self]
  intro q v hm
  obtain ⟨hq, hm⟩ := (hd q v).1 hm
  obtain ⟨i, hi, hpid, hv⟩ := h.entries q v hm
  have hip : i ≠ p := by
    rintro rfl
    exact hq hpid.symm
  refine ⟨i, ?_, hpid, hv⟩
  rwa [Function.update_of_ne hip]

end MapSound

end Xeros
