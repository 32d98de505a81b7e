import Xeros.Procs.Frames
import Mathlib.Data.List.TakeWhile
/-!
# The process lists

What the queue functions do to the lists of a `Links.Family`: each of them
returns, and puts one process at the end of a list or takes one out.
-/

namespace Xeros

open Links Kernel

variable {k : Kernel} {f : Queue → List Idx} {p : Idx}

/-! ## Walks -/

theorem length_lt_fuel_queue (h : Family k.links f) (q : Queue) : (f q).length < QUEUE_FUEL := by
  have hl := h.length_le q
  rw [Fintype.card_fin] at hl
  exact Nat.lt_succ_of_le hl

/-- A walk with no stop condition ends at the end of the list. -/
theorem walk_end (h : Family k.links f) (q : Queue) :
    walk k.links (fun _ => false) QUEUE_FUEL (.head q) = some (tail (.head q) (f q)) := by
  have hw := walk_chain (p := fun _ => false) (h.chain q) (length_lt_fuel_queue h q)
  rwa [List.takeWhile_eq_self_iff.2 (by simp)] at hw

/-! ## The ready queue -/

/-- `ready` appends to the ready queue, whatever the `next` field of `p` was. -/
theorem ready_spec (h : Family k.links f) (hp : ∀ q, p ∉ f q) : ∃ k', ready k p = some k' ∧
    k'.links = Function.update (Function.update k.links (tail (.head .ready) (f .ready)) (some p)) (.next p) none ∧
    Family k'.links (Function.update f .ready (f .ready ++ [p])) := by
  have hlinks (k' : Kernel) (st : Idx → PState) :
      ({ k' with next := Function.update k'.next p none, state := st } : Kernel).links =
        Function.update k'.links (.next p) none := links_assign k' (.next p) none
  unfold ready
  rw [walk_end h]
  refine ⟨_, rfl, ?_, ?_⟩
  · rw [hlinks, links_assign]
  · rw [hlinks, links_assign]
    exact h.append .ready hp

theorem next_none (h : Family k.links f) (hf : f .ready = []) : next k = (none, k) := by
  have hc := h.chain .ready
  rw [hf] at hc
  have hr : k.ready_queue = none := hc
  unfold next
  rw [hr]

theorem next_some (h : Family k.links f) {is : List Idx} (hf : f .ready = p :: is) : ∃ k', next k = (some p, k') ∧
    k'.links = Function.update (Function.update k.links (.head .ready) (k.next p)) (.next p) none ∧
    Family k'.links (Function.update f .ready is) ∧ k' = { k with ready_queue := k'.ready_queue, next := k'.next } := by
  have hc := h.chain .ready
  rw [hf] at hc
  have hr : k.ready_queue = some p := hc.1
  have hrem := h.remove (a := .ready) ((List.nil_append _).trans hf.symm).symm
  have hun := h.not_mem_remove (a := .ready) ((List.nil_append _).trans hf.symm).symm
  have hlinks : ({ k with ready_queue := k.next p, next := Function.update k.next p none } : Kernel).links =
      Function.update (Function.update k.links (.head .ready) (k.next p)) (.next p) none := by
    rw [← links_assign k (.head .ready), ← links_assign]
    rfl
  unfold next
  rw [hr]
  refine ⟨_, rfl, hlinks, ?_, rfl⟩
  rw [hlinks]
  exact hrem.unlisted hun none

/-! ## Message queues -/

/-- `queue_remove` finds the first process with the pid, or none. -/
theorem queue_remove_spec (h : Family k.links f) (q : Queue) (pid : Word) :
    ((∀ i ∈ f q, k.pid i ≠ pid) ∧ queue_remove k q pid = some (none, k)) ∨
    ∃ xs i ys, f q = xs ++ i :: ys ∧ (∀ x ∈ xs, k.pid x ≠ pid) ∧ k.pid i = pid ∧
      queue_remove k q pid = some (some i, k.assign (tail (.head q) xs) (k.next i)) ∧
      Family (k.assign (tail (.head q) xs) (k.next i)).links (Function.update f q (xs ++ ys)) := by
  have hw := walk_chain (p := fun i => k.pid i == pid) (h.chain q) (length_lt_fuel_queue h q)
  by_cases hmem : ∃ i ∈ f q, k.pid i = pid
  · right
    obtain ⟨j, hj, hjp⟩ := hmem
    obtain ⟨i, hfind⟩ := Option.isSome_iff_exists.1
      (List.find?_isSome (p := fun i => k.pid i == pid).2 ⟨j, hj, by simpa using hjp⟩)
    obtain ⟨hi, xs, ys, hsplit, hxs⟩ := List.find?_eq_some_iff_append.1 hfind
    have htake : (f q).takeWhile (fun i => !(k.pid i == pid)) = xs := by
      rw [hsplit, List.takeWhile_append_of_pos hxs, List.takeWhile_cons_of_neg (by simpa using hi), List.append_nil]
    have hc := h.chain q
    rw [hsplit, chain_append] at hc
    refine ⟨xs, i, ys, hsplit, by simpa using hxs, by simpa using hi, ?_, ?_⟩
    · unfold queue_remove
      rw [hw, htake, Option.bind_eq_bind, Option.bind_some, hc.2.1]
    · rw [links_assign]
      exact h.remove hsplit
  · left
    have hne : ∀ i ∈ f q, k.pid i ≠ pid := fun i hi e => hmem ⟨i, hi, e⟩
    rw [List.takeWhile_eq_self_iff.2 fun i hi => by simpa using hne i hi] at hw
    refine ⟨hne, ?_⟩
    unfold queue_remove
    rw [hw, Option.bind_eq_bind, Option.bind_some, (h.chain q).at_tail]

/-- `queue_insert` appends a process whose `next` field is null. -/
theorem queue_insert_spec (h : Family k.links f) (hp : ∀ q, p ∉ f q) (hn : k.next p = none) (q : Queue) (st : PState) :
    ∃ k', queue_insert k q p st = some k' ∧ k' = { k.assign (tail (.head q) (f q)) (some p) with
      state := Function.update k.state p st } ∧
      Family k'.links (Function.update f q (f q ++ [p])) := by
  refine ⟨_, ?_, rfl, ?_⟩
  · unfold queue_insert
    rw [walk_end h]
    simp
  · have hlinks : ({ k.assign (tail (.head q) (f q)) (some p) with state := Function.update k.state p st } : Kernel).links
        = Function.update k.links (tail (.head q) (f q)) (some p) := links_assign ..
    have ha := h.append q hp
    rw [hlinks]
    rwa [Function.update_eq_self_iff.2] at ha
    rw [Function.update_of_ne]
    · exact hn.symm
    · exact (tail_ne_next (by simp) (hp q)).symm

end Xeros
