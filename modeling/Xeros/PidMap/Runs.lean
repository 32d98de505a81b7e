import Xeros.PidMap.Delete
import Xeros.Lib.Runs
import Xeros.Model.Syscall
/-!
# Runs of the pid map

Calls of `pidMapInsert` and `pidMapDelete` in any order, from the empty map.
`recorded` says what a finite map would hold after a list of calls. The tree
holds the same in every run in which no insertion turns a subtree to the right
(`pidMap_recorded`); a right turn drops the node it should move down
(`pidMap_forgets`).
-/

namespace Xeros

open Assoc Runs

inductive MapCall where
  | insert (pid pcbIndex : Word)
  | delete (pid : Word)
  deriving DecidableEq

/-- The kernel and the calls so far, the last one first. -/
structure MapSys where
  kernel : Kernel
  calls : List MapCall

def MapSys.step : MapCall → MapSys → Option MapSys
  | .insert pid pcbIndex, s => do
    let k ← pidMapInsert s.kernel pid pcbIndex
    some ⟨k, .insert pid pcbIndex :: s.calls⟩
  | .delete pid, s => do
    let k ← pidMapDelete s.kernel pid
    some ⟨k, .delete pid :: s.calls⟩

def MapSys.Empty (s : MapSys) : Prop := s.kernel.pidMap = .null ∧ s.calls = []

/-- The index of the last insert of `q`, if no delete of `q` came after it. -/
def recorded : List MapCall → Word → Option Word
  | [], _ => none
  | .insert pid pcbIndex :: calls, q => if pid = q then some pcbIndex else recorded calls q
  | .delete pid :: calls, q => if pid = q then none else recorded calls q

/-- The call turns no subtree to the right. -/
def NoRightTurn (s : MapSys) : MapCall → Prop
  | .insert pid _ => insertTurnsRight s.kernel.pidMap pid = false
  | .delete _ => True

instance (s : MapSys) : DecidablePred (NoRightTurn s)
  | .insert pid _ => inferInstanceAs (Decidable (insertTurnsRight s.kernel.pidMap pid = false))
  | .delete _ => inferInstanceAs (Decidable True)

/-- The tree is ordered and holds what was recorded. -/
def Faithful (s : MapSys) : Prop :=
  s.kernel.pidMap.Ordered ∧ ∀ q v, (q, v) ∈ s.kernel.pidMap.entries ↔ recorded s.calls q = some v

/-! ## What the two calls do to the map -/

theorem pidMapInsert_sets {k k' : Kernel} {pid i : Word} (ho : k.pidMap.Ordered)
    (hr : insertTurnsRight k.pidMap pid = false) (hk : pidMapInsert k pid i = some k') :
    (∃ h, k' = { k with toHeap := h, pidMap := k'.pidMap }) ∧
      Sets pid i k.pidMap.entries k'.pidMap.entries ∧ k'.pidMap.Ordered := by
  obtain ⟨⟨t, h⟩, hi, hk⟩ := Option.bind_eq_some_iff.1 hk
  cases hk
  exact ⟨⟨h, rfl⟩, insert_sets ho hr hi⟩

theorem pidMapDelete_drops {k k' : Kernel} {pid : Word} (ho : k.pidMap.Ordered) (hk : pidMapDelete k pid = some k') :
    (∃ h, k' = { k with toHeap := h, pidMap := k'.pidMap }) ∧
      Drops pid k.pidMap.entries k'.pidMap.entries ∧ k'.pidMap.Ordered := by
  obtain ⟨⟨t, h⟩, hd, hk⟩ := Option.bind_eq_some_iff.1 hk
  cases hk
  exact ⟨⟨h, rfl⟩, delete_drops ho hd⟩

theorem Faithful.step {s s' : MapSys} {c : MapCall} (hs : Faithful s) (hok : NoRightTurn s c)
    (ht : MapSys.step c s = some s') : Faithful s' := by
  obtain ⟨ho, hm⟩ := hs
  cases c with
  | insert pid i =>
    obtain ⟨k, hk, ht⟩ := Option.bind_eq_some_iff.1 ht
    cases ht
    obtain ⟨-, hset, hord⟩ := pidMapInsert_sets ho hok hk
    refine ⟨hord, fun q v => ?_⟩
    rw [hset q v, hm q v, recorded]
    split <;> grind
  | delete pid =>
    obtain ⟨k, hk, ht⟩ := Option.bind_eq_some_iff.1 ht
    cases ht
    obtain ⟨-, hdrop, hord⟩ := pidMapDelete_drops ho hk
    refine ⟨hord, fun q v => ?_⟩
    rw [hdrop q v, hm q v, recorded]
    split <;> grind

/-! ## Results -/

/-- In every run that turns no subtree to the right, a lookup finds the index of
the last insert of the pid that no delete followed. -/
theorem pidMap_recorded {s : MapSys} (hs : Reach MapSys.step MapSys.Empty NoRightTurn s) (q : Word) :
    pidMapLookup s.kernel q = recorded s.calls q := by
  have hf : Faithful s := by
    refine hs.inv Faithful (fun s h => ?_) fun _ _ _ h ho ht => h.step ho ht
    obtain ⟨h1, h2⟩ := h
    refine ⟨?_, fun q v => ?_⟩
    · rw [h1]
      exact List.Pairwise.nil
    · rw [h1, h2]
      simp [TreeNode.entries, recorded]
  obtain ⟨ho, hm⟩ := hf
  refine Option.ext fun v => ?_
  rw [pidMapLookup, lookup_iff ho, hm]

/-- A kernel with an empty map and a heap of two free nodes. -/
def freshMap : MapSys := ⟨init sampleImage fun _ => 0, []⟩

theorem pidMap_recorded_3_calls : ∃ s, Reach MapSys.step MapSys.Empty NoRightTurn s ∧
    s.calls = [.delete 1, .insert 2 20, .insert 1 10] ∧ pidMapLookup s.kernel 2 = recorded s.calls 2 := by
  have h0 : Reach MapSys.step MapSys.Empty NoRightTurn freshMap := .start ⟨rfl, rfl⟩
  obtain ⟨s, hs, ht⟩ := h0.exec_ok (fun s c => decide (NoRightTurn s c)) (fun _ _ => of_decide_eq_true)
    [.insert 1 10, .insert 2 20, .delete 1]
    (fun s => decide (s.calls = [.delete 1, .insert 2 20, .insert 1 10])) (by decide +kernel)
  exact ⟨s, hs, of_decide_eq_true ht, pidMap_recorded hs 2⟩

/-- Three inserts in descending order lose the first pid. -/
theorem pidMap_forgets : ¬∀ s, Reach MapSys.step MapSys.Empty Any s →
    ∀ q, pidMapLookup s.kernel q = recorded s.calls q := by
  intro hall
  have h0 : Reach MapSys.step MapSys.Empty Any freshMap := .start ⟨rfl, rfl⟩
  obtain ⟨s, hs, ht⟩ := h0.exec_any [.insert 3 30, .insert 2 20, .insert 1 10]
    (fun s => decide (pidMapLookup s.kernel 3 ≠ recorded s.calls 3)) (by decide +kernel)
  exact of_decide_eq_true ht (hall s hs 3)

end Xeros
