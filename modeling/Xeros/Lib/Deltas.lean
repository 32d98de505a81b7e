import Mathlib.Algebra.GroupWithZero.Nat
import Mathlib.Data.List.Basic
import Mathlib.Tactic.Common
/-!
# Delta lists

A queue of timers in the order of their due times can store for each timer
only the time since the one before it. A timer is a pair of a node and its due
time. `Counts δ base l` says that the differences `δ` of the nodes of `l`,
counted from `base`, lead to their due times; `ByTime s l` that `l` is `s`
sorted by due time, timers that are due together staying in order.
-/

namespace Deltas

variable {ι : Type} {δ δ' : ι → Nat} {base d t : Nat} {i : ι} {s xs ys l : List (ι × Nat)}

/-! ## Differences -/

/-- The differences lead from `base` to each due time. -/
def Counts (δ : ι → Nat) : Nat → List (ι × Nat) → Prop
  | _, [] => True
  | base, e :: l => base + δ e.1 = e.2 ∧ Counts δ e.2 l

/-- The time the node behind `l` counts from. -/
def last : Nat → List (ι × Nat) → Nat
  | base, [] => base
  | _, e :: l => last e.2 l

theorem counts_append : Counts δ base (xs ++ ys) ↔ Counts δ base xs ∧ Counts δ (last base xs) ys := by
  induction xs generalizing base with
  | nil => simp [Counts, last]
  | cons x xs ih => simp only [List.cons_append, Counts, last, ih, and_assoc]

theorem Counts.congr (h : Counts δ base l) (hδ : ∀ e ∈ l, δ' e.1 = δ e.1) : Counts δ' base l := by
  induction l generalizing base with
  | nil => trivial
  | cons e l ih =>
    refine ⟨?_, ih h.2 fun e' he' => hδ e' (List.mem_cons_of_mem _ he')⟩
    rw [hδ e List.mem_cons_self]
    exact h.1

theorem Counts.base_le (h : Counts δ base l) : ∀ e ∈ l, base ≤ e.2 := by
  induction l generalizing base with
  | nil => simp
  | cons e l ih =>
    intro e' he'
    have he : base + δ e.1 = e.2 := h.1
    rcases List.mem_cons.1 he' with rfl | he'
    · omega
    · have := ih h.2 e' he'
      omega

/-- The differences add up to the last due time. -/
theorem Counts.sum (h : Counts δ base l) : base + (l.map fun e => δ e.1).sum = last base l := by
  induction l generalizing base with
  | nil => rfl
  | cons e l ih =>
    have he : base + δ e.1 = e.2 := h.1
    rw [List.map_cons, List.sum_cons, ← Nat.add_assoc, he]
    exact ih h.2

theorem last_mem (base : Nat) (h : l ≠ []) : ∃ e ∈ l, last base l = e.2 := by
  induction l generalizing base with
  | nil => exact absurd rfl h
  | cons e l ih =>
    by_cases hl : l = []
    · subst hl
      exact ⟨e, List.mem_cons_self, rfl⟩
    · obtain ⟨a, ha, hlast⟩ := ih e.2 hl
      exact ⟨a, List.mem_cons_of_mem _ ha, hlast⟩

theorem Counts.le_last (h : Counts δ base l) : ∀ e ∈ l, e.2 ≤ last base l := by
  induction l generalizing base with
  | nil => simp
  | cons e l ih =>
    intro a ha
    rcases List.mem_cons.1 ha with rfl | ha
    · have hsum := Counts.sum h.2
      rw [last]
      omega
    · exact ih h.2 a ha

/-- A node is put in with the difference `d - last base xs`; the one behind it
counts from the new one. -/
theorem Counts.insert (h : Counts δ base (xs ++ ys)) (hi : last base xs + δ' i = d)
    (hxs : ∀ e ∈ xs, δ' e.1 = δ e.1) (hys : ∀ e ∈ ys.head?, d + δ' e.1 = e.2) (htl : ∀ e ∈ ys.tail, δ' e.1 = δ e.1) :
    Counts δ' base (xs ++ (i, d) :: ys) := by
  obtain ⟨h1, h2⟩ := counts_append.1 h
  refine counts_append.2 ⟨h1.congr hxs, hi, ?_⟩
  cases ys with
  | nil => trivial
  | cons y ys => exact ⟨hys y rfl, h2.2.congr htl⟩

/-- Time passes: the first node counts from a later time. -/
theorem Counts.elapse {e : ι × Nat} (h : Counts δ base (e :: l)) (he : d + δ' e.1 = e.2) (hl : ∀ e ∈ l, δ' e.1 = δ e.1) :
    Counts δ' d (e :: l) :=
  ⟨he, Counts.congr h.2 hl⟩

/-- The timers that are due at once have no time left, and the one behind them has. -/
theorem Counts.split (h : Counts δ t l) : ∃ xs ys, l = xs ++ ys ∧ (∀ e ∈ xs, δ e.1 = 0 ∧ e.2 = t) ∧
    (∀ e ∈ ys, t < e.2) ∧ (∀ e ∈ ys.head?, δ e.1 ≠ 0) ∧ Counts δ t ys := by
  induction l with
  | nil => exact ⟨[], [], rfl, by simp, by simp, by simp, trivial⟩
  | cons e l ih =>
    have he : t + δ e.1 = e.2 := h.1
    by_cases h0 : δ e.1 = 0
    · have het : e.2 = t := by omega
      obtain ⟨xs, ys, hsplit, hx, hy⟩ := ih (het ▸ h.2)
      refine ⟨e :: xs, ys, by rw [hsplit]; rfl, ?_, hy⟩
      intro e' he'
      rcases List.mem_cons.1 he' with rfl | he'
      · exact ⟨h0, het⟩
      · exact hx e' he'
    · refine ⟨[], e :: l, rfl, by simp, ?_, by simpa using h0, h⟩
      intro e' he'
      rcases List.mem_cons.1 he' with rfl | he'
      · omega
      · have := Counts.base_le h.2 e' he'
        omega

/-! ## Order -/

/-- `l` is `s` in the order of the due times. -/
structure ByTime (s l : List (ι × Nat)) : Prop where
  sorted : l.Pairwise (·.2 ≤ ·.2)
  ties : ∀ t, l.filter (fun e => e.2 = t) = s.filter fun e => e.2 = t

theorem filter_ne (h : ∀ e ∈ l, e.2 ≠ t) : l.filter (fun e => e.2 = t) = [] := by
  simpa [List.filter_eq_nil_iff] using h

namespace ByTime

theorem mem_iff (h : ByTime s l) (e : ι × Nat) : e ∈ l ↔ e ∈ s := by
  have := congrArg (e ∈ ·) (h.ties e.2)
  simpa using this

/-- No timer is lost and none is doubled. -/
theorem perm [DecidableEq ι] (h : ByTime s l) : l.Perm s := by
  apply List.perm_iff_count.2
  intro e
  have ht := congrArg (List.count e) (h.ties e.2)
  rwa [List.count_filter (by simp), List.count_filter (by simp)] at ht

/-- The newest timer goes behind all that are due no later. -/
theorem insert (h : ByTime s (xs ++ ys)) (hx : ∀ e ∈ xs, e.2 ≤ d) (hy : ∀ e ∈ ys, d < e.2) (i : ι) :
    ByTime (s ++ [(i, d)]) (xs ++ (i, d) :: ys) := by
  obtain ⟨h1, h2, h3⟩ := List.pairwise_append.1 h.sorted
  refine ⟨List.pairwise_append.2 ⟨h1, .cons (fun e he => Nat.le_of_lt (hy e he)) h2, ?_⟩, fun t => ?_⟩
  · intro a ha b hb
    rcases List.mem_cons.1 hb with rfl | hb
    · exact hx a ha
    · exact h3 a ha b hb
  · have ht := h.ties t
    rw [List.filter_append] at ht
    rw [List.filter_append, List.filter_append, ← ht]
    by_cases hd : d = t
    · have hys : ys.filter (fun e => e.2 = t) = [] := filter_ne fun e he => by
        have := hy e he
        omega
      rw [List.filter_cons_of_pos (by simpa using hd), hys, List.append_nil, List.filter_cons_of_pos (by simpa using hd),
        List.filter_nil]
    · rw [List.filter_cons_of_neg (by simpa using hd), List.filter_cons_of_neg (by simpa using hd), List.filter_nil,
        List.append_nil]

/-- The timers that are due first leave together, in the order they came. -/
theorem due (h : ByTime s (xs ++ ys)) (hx : ∀ e ∈ xs, e.2 = t) (hy : ∀ e ∈ ys, t < e.2) :
    xs = s.filter (fun e => e.2 = t) ∧ ByTime (s.filter fun e => e.2 ≠ t) ys := by
  have hys : ys.filter (fun e => e.2 = t) = [] := filter_ne fun e he => by
    have := hy e he
    omega
  refine ⟨?_, (List.pairwise_append.1 h.sorted).2.1, fun t' => ?_⟩
  · rw [← h.ties t, List.filter_append, hys, List.append_nil, List.filter_eq_self.2 (by simpa using hx)]
  · rw [List.filter_filter]
    by_cases ht : t' = t
    · subst ht
      rw [hys]
      symm
      rw [List.filter_eq_nil_iff]
      intro e _ he
      simp at he
    · have hxs : xs.filter (fun e => e.2 = t') = [] := filter_ne fun e he => by
        have := hx e he
        omega
      have ht' := h.ties t'
      rw [List.filter_append, hxs, List.nil_append] at ht'
      rw [ht']
      refine List.filter_congr fun e _ => ?_
      by_cases he : e.2 = t'
      · simp [he, ht]
      · simp [he]

end ByTime

end Deltas
