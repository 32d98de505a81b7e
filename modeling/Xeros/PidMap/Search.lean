import Xeros.Model.Syscall
import Xeros.PidMap.Tree
import Mathlib.Data.List.Perm.Subperm
/-!
# The search for a pid

`getNextPid` steps over the pids that are taken. They are at most one more than
the map has entries, and so are the turns of its loop (`getNextPid_bounded`).
-/

namespace Xeros

open Assoc TreeNode

/-- The pid is in use, or 0. -/
def Taken (t : TreeNode) (pid : Word) : Prop := pid = 0 ∨ (lookup t pid).isSome

/-- `pid` is the first one from `start` on that is not taken. -/
structure FirstUnused (t : TreeNode) (start pid : Word) : Prop where
  unused : ¬Taken t pid
  first : ∀ j < (pid - start).toNat, Taken t (start + BitVec.ofNat 32 j)

variable {t : TreeNode} {start pid pid' : Word}

theorem FirstUnused.unique (h : FirstUnused t start pid) (h' : FirstUnused t start pid') : pid = pid' := by
  have hgo : ∀ {x y : Word}, FirstUnused t start x → FirstUnused t start y → ¬(x - start).toNat < (y - start).toNat := by
    intro x y hx hy hlt
    have hj := hy.first _ hlt
    have e : start + BitVec.ofNat 32 (x - start).toNat = x := by bv_omega
    rw [e] at hj
    exact hx.unused hj
  have h1 := hgo h h'
  have h2 := hgo h' h
  bv_omega

/-- From any pid that is not taken there is a first one. -/
theorem exists_firstUnused (start : Word) (h : ¬Taken t pid) : ∃ r, FirstUnused t start r := by
  classical
  have hex : ∃ j, ¬Taken t (start + BitVec.ofNat 32 j) := by
    refine ⟨(pid - start).toNat, ?_⟩
    have e : start + BitVec.ofNat 32 (pid - start).toNat = pid := by bv_omega
    rwa [e]
  refine ⟨_, Nat.find_spec hex, fun j hj => ?_⟩
  by_contra hno
  have hle := Nat.find_min' hex hno
  bv_omega

/-! ## The loop -/

/-- The loop finds the first unused pid when it may make its test once more than
it has to step on. -/
theorem getNextPid_loop_eq (h : FirstUnused t start pid) (n : Nat) :
    getNextPid_loop t n start = if (pid - start).toNat < n then some pid else none := by
  induction n generalizing start with
  | zero => rfl
  | succ n ih =>
    unfold getNextPid_loop
    by_cases h0 : Taken t start
    · have hne : pid ≠ start := by
        rintro rfl
        exact h.unused h0
      have hstep : (pid - start).toNat = (pid - (start + 1)).toNat + 1 := by bv_omega
      have h' : FirstUnused t (start + 1) pid := by
        refine ⟨h.unused, fun j hj => ?_⟩
        have hj' := h.first (j + 1) (by omega)
        have e : start + BitVec.ofNat 32 (j + 1) = start + 1 + BitVec.ofNat 32 j := by bv_omega
        rwa [e] at hj'
      rw [if_pos (show start = 0 ∨ (lookup t start).isSome from h0), ih h', hstep]
      simp only [Nat.add_lt_add_iff_right]
    · have he : pid = start := by
        by_contra hne
        have hj := h.first 0 (by bv_omega)
        exact h0 (by simpa using hj)
      subst he
      rw [if_neg (show ¬(pid = 0 ∨ (lookup t pid).isSome) from h0)]
      simp

theorem lt_pidFuel (n : Word) : n.toNat < PID_FUEL := Nat.lt_succ_of_lt n.isLt

theorem entries_nodup (ho : t.Ordered) : t.entries.Nodup := ho.imp fun hlt e => Assoc.ne_of_lt hlt (congrArg Prod.fst e)

/-- Taken pids in a row are at most one more than there are entries. -/
theorem length_le_of_taken (ho : t.Ordered) {n : Nat} (hn : n ≤ 2 ^ 32)
    (ht : ∀ j < n, Taken t (start + BitVec.ofNat 32 j)) : n ≤ t.entries.length + 1 := by
  have hnodup : ((List.range n).map fun j => start + BitVec.ofNat 32 j).Nodup := by
    refine List.Nodup.map_on (fun i hi j hj e => ?_) List.nodup_range
    rw [List.mem_range] at hi hj
    bv_omega
  have hsub : ((List.range n).map fun j => start + BitVec.ofNat 32 j) ⊆ 0 :: t.entries.map Prod.fst := by
    intro q hq
    obtain ⟨j, hj, rfl⟩ := List.mem_map.1 hq
    rcases ht j (List.mem_range.1 hj) with h0 | hs
    · rw [h0]
      exact List.mem_cons_self
    · obtain ⟨v, hv⟩ := Option.isSome_iff_exists.1 hs
      exact List.mem_cons_of_mem _ (List.mem_map_of_mem ((lookup_iff ho _ v).1 hv))
  have hle := (hnodup.subperm hsub).length_le
  rwa [List.length_map, List.length_range, List.length_cons, List.length_map] at hle

/-! ## Results -/

/-- If a pid other than 0 is not in the map, `getNextPid` ends at the first such
pid from `nextPid` on, and leaves `nextPid` one past it. Its loop steps on at most
once for each entry of the map, and once more to pass 0. -/
theorem getNextPid_bounded (k : Kernel) (ho : k.pidMap.Ordered)
    (hfree : ∃ q, q ≠ 0 ∧ ∀ v, (q, v) ∉ k.pidMap.entries) :
    ∃ pid turns, getNextPid k = some (pid, { k with nextPid := pid + 1 }) ∧
      pid = k.nextPid + BitVec.ofNat 32 turns ∧ pid ≠ 0 ∧ pidMapLookup k pid = none ∧
      (∀ j < turns, k.nextPid + BitVec.ofNat 32 j = 0 ∨ (pidMapLookup k (k.nextPid + BitVec.ofNat 32 j)).isSome) ∧
      turns ≤ k.pidMap.entries.length + 1 ∧
      ∀ fuel, getNextPid_loop k.pidMap fuel k.nextPid = if turns < fuel then some pid else none := by
  obtain ⟨q, hq, hno⟩ := hfree
  have hunused : ¬Taken k.pidMap q := by
    rintro (h0 | hs)
    · exact hq h0
    · rw [lookup_none ho hno] at hs
      cases hs
  obtain ⟨pid, hfirst⟩ := exists_firstUnused k.nextPid hunused
  obtain ⟨hnz, hnone⟩ := not_or.1 hfirst.unused
  have hlt := (pid - k.nextPid).isLt
  refine ⟨pid, (pid - k.nextPid).toNat, ?_, by bv_omega, hnz, Option.not_isSome_iff_eq_none.1 hnone, hfirst.first,
    length_le_of_taken ho hlt.le hfirst.first, getNextPid_loop_eq hfirst⟩
  rw [getNextPid, getNextPid_loop_eq hfirst, if_pos (lt_pidFuel _)]
  rfl

/-- The search wraps: it steps over the last pid and 0. -/
theorem getNextPid_bounded_wraps :
    let k := { init sampleImage (fun _ => 0) with
      nextPid := 0xFFFFFFFF, pidMap := .node 0x20010 0xFFFFFFFF 0 1 .null .null }
    getNextPid k = some (1, { k with nextPid := 2 }) := by
  intro k
  obtain ⟨pid, turns, hget, hpid, -, -, -, hturns, hloop⟩ :=
    getNextPid_bounded k (List.pairwise_singleton _ _) ⟨1, by decide, fun v hm => by simp [k, TreeNode.entries] at hm⟩
  have hrun : getNextPid_loop k.pidMap 3 k.nextPid = some 1 := by decide
  have hle : turns ≤ 2 := hturns
  rw [hloop, if_pos (Nat.lt_succ_of_le hle)] at hrun
  cases hrun
  exact hget

end Xeros
