import Mathlib.Data.List.Pairwise
import Mathlib.Order.Defs.Unbundled
import Mathlib.Tactic.Common
/-!
# Sorted association lists

Pairs in strictly ascending order of their keys: what a search tree holds, read
from left to right. `Sets k v l l'` says that `l'` maps `k` to `v` and agrees
with `l` elsewhere, `Drops k l l'` that `l'` has lost the key `k` and nothing
else. Both may be shown in the part of a list on one side of an entry.
-/

namespace Assoc

variable {κ ν : Type}

def Sorted [LT κ] (l : List (κ × ν)) : Prop := l.Pairwise fun a b => a.1 < b.1

def Sets (k : κ) (v : ν) (l l' : List (κ × ν)) : Prop :=
  ∀ q w, (q, w) ∈ l' ↔ (q = k ∧ w = v) ∨ (q ≠ k ∧ (q, w) ∈ l)

def Drops (k : κ) (l l' : List (κ × ν)) : Prop := ∀ q w, (q, w) ∈ l' ↔ q ≠ k ∧ (q, w) ∈ l

variable {k : κ} {v w : ν} {e : κ × ν} {l l' xs xs' ys ys' : List (κ × ν)}

theorem sorted_around [LT κ] : Sorted (xs ++ e :: ys) ↔
    Sorted xs ∧ Sorted ys ∧ (∀ x ∈ xs, x.1 < e.1) ∧ (∀ y ∈ ys, e.1 < y.1) ∧ ∀ x ∈ xs, ∀ y ∈ ys, x.1 < y.1 := by
  unfold Sorted
  simp only [List.pairwise_append, List.pairwise_cons, List.mem_cons, forall_eq_or_imp]
  constructor
  · rintro ⟨h1, ⟨h2, h3⟩, h4⟩
    exact ⟨h1, h3, fun x hx => (h4 x hx).1, h2, fun x hx => (h4 x hx).2⟩
  · rintro ⟨h1, h2, h3, h4, h5⟩
    exact ⟨h1, ⟨h4, h2⟩, fun x hx => ⟨h3 x hx, h5 x hx⟩⟩

/-- Every key of the new list is the new one or an old one. -/
theorem Sets.key (h : Sets k v l l') {x : κ × ν} (hx : x ∈ l') : x.1 = k ∨ x ∈ l := by
  rcases (h x.1 x.2).1 hx with ⟨e, -⟩ | ⟨-, hx⟩
  · exact .inl e
  · exact .inr hx

theorem Drops.sub (h : Drops k l l') {x : κ × ν} (hx : x ∈ l') : x.1 ≠ k ∧ x ∈ l := (h x.1 x.2).1 hx

section
variable [LT κ] [IsStrictOrder κ (· < ·)]

theorem ne_of_lt {a b : κ} (h : a < b) : a ≠ b := by
  rintro rfl
  exact irrefl_of (· < ·) a h

/-- A sorted list holds one value for a key. -/
theorem Sorted.unique (h : Sorted l) (hv : (k, v) ∈ l) (hw : (k, w) ∈ l) : v = w := by
  induction l with
  | nil => cases hv
  | cons e l ih =>
    obtain ⟨h1, h2⟩ := List.pairwise_cons.1 h
    rcases List.mem_cons.1 hv with hv | hv <;> rcases List.mem_cons.1 hw with hw | hw
    · exact (Prod.mk.inj (hv.trans hw.symm)).2
    · exact absurd rfl (ne_of_lt (hv ▸ h1 _ hw))
    · exact absurd rfl (ne_of_lt (hw ▸ h1 _ hv))
    · exact ih h2 hv hw

theorem lt_trans {a b c : κ} (h : a < b) (h' : b < c) : a < c := trans_of (· < ·) h h'

/-- Setting a key in front of an entry. -/
theorem Sets.left (h : Sets k v xs xs') (hs : Sorted (xs ++ e :: ys)) (hk : k < e.1) (hs' : Sorted xs') :
    Sets k v (xs ++ e :: ys) (xs' ++ e :: ys) ∧ Sorted (xs' ++ e :: ys) := by
  obtain ⟨-, h2, h3, h4, h5⟩ := sorted_around.1 hs
  refine ⟨fun q w => ?_, sorted_around.2 ⟨hs', h2, fun x hx => ?_, h4, fun x hx y hy => ?_⟩⟩
  · have hright : (q, w) ∈ e :: ys → q ≠ k := by
      intro hm e'
      subst e'
      rcases List.mem_cons.1 hm with rfl | hm
      · exact ne_of_lt hk rfl
      · exact ne_of_lt (lt_trans hk (h4 _ hm)) rfl
    rw [List.mem_append, List.mem_append, h q w]
    tauto
  · rcases h.key hx with e' | hx
    · exact e' ▸ hk
    · exact h3 x hx
  · rcases h.key hx with e' | hx
    · exact e' ▸ lt_trans hk (h4 y hy)
    · exact h5 x hx y hy

/-- Setting a key behind an entry. -/
theorem Sets.right (h : Sets k v ys ys') (hs : Sorted (xs ++ e :: ys)) (hk : e.1 < k) (hs' : Sorted ys') :
    Sets k v (xs ++ e :: ys) (xs ++ e :: ys') ∧ Sorted (xs ++ e :: ys') := by
  obtain ⟨h1, -, h3, h4, h5⟩ := sorted_around.1 hs
  refine ⟨fun q w => ?_, sorted_around.2 ⟨h1, hs', h3, fun y hy => ?_, fun x hx y hy => ?_⟩⟩
  · have hleft : (q, w) ∈ xs ∨ (q, w) = e → q ≠ k := by
      intro hm e'
      subst e'
      rcases hm with hm | rfl
      · exact ne_of_lt (lt_trans (h3 _ hm) hk) rfl
      · exact ne_of_lt hk rfl
    rw [List.mem_append, List.mem_append, List.mem_cons, List.mem_cons, h q w]
    tauto
  · rcases h.key hy with e' | hy
    · exact e' ▸ hk
    · exact h4 y hy
  · rcases h.key hy with e' | hy
    · exact e' ▸ lt_trans (h3 x hx) hk
    · exact h5 x hx y hy

/-- Replacing the value of an entry. -/
theorem Sets.here (hs : Sorted (xs ++ (k, w) :: ys)) :
    Sets k v (xs ++ (k, w) :: ys) (xs ++ (k, v) :: ys) ∧ Sorted (xs ++ (k, v) :: ys) := by
  obtain ⟨h1, h2, h3, h4, h5⟩ := sorted_around.1 hs
  refine ⟨fun q u => ?_, sorted_around.2 ⟨h1, h2, h3, h4, h5⟩⟩
  have hleft : (q, u) ∈ xs → q ≠ k := fun hm => ne_of_lt (h3 _ hm)
  have hright : (q, u) ∈ ys → q ≠ k := fun hm => (ne_of_lt (h4 _ hm)).symm
  simp only [List.mem_append, List.mem_cons, Prod.mk.injEq]
  tauto

theorem Drops.left (h : Drops k xs xs') (hs : Sorted (xs ++ e :: ys)) (hk : k < e.1) (hs' : Sorted xs') :
    Drops k (xs ++ e :: ys) (xs' ++ e :: ys) ∧ Sorted (xs' ++ e :: ys) := by
  obtain ⟨-, h2, h3, h4, h5⟩ := sorted_around.1 hs
  refine ⟨fun q w => ?_, sorted_around.2
    ⟨hs', h2, fun x hx => h3 x (h.sub hx).2, h4, fun x hx => h5 x (h.sub hx).2⟩⟩
  have hright : (q, w) ∈ e :: ys → q ≠ k := by
    intro hm e'
    subst e'
    rcases List.mem_cons.1 hm with rfl | hm
    · exact ne_of_lt hk rfl
    · exact ne_of_lt (lt_trans hk (h4 _ hm)) rfl
  rw [List.mem_append, List.mem_append, h q w]
  tauto

theorem Drops.right (h : Drops k ys ys') (hs : Sorted (xs ++ e :: ys)) (hk : e.1 < k) (hs' : Sorted ys') :
    Drops k (xs ++ e :: ys) (xs ++ e :: ys') ∧ Sorted (xs ++ e :: ys') := by
  obtain ⟨h1, -, h3, h4, h5⟩ := sorted_around.1 hs
  refine ⟨fun q w => ?_, sorted_around.2
    ⟨h1, hs', h3, fun y hy => h4 y (h.sub hy).2, fun x hx y hy => h5 x hx y (h.sub hy).2⟩⟩
  have hleft : (q, w) ∈ xs ∨ (q, w) = e → q ≠ k := by
    intro hm e'
    subst e'
    rcases hm with hm | rfl
    · exact ne_of_lt (lt_trans (h3 _ hm) hk) rfl
    · exact ne_of_lt hk rfl
  rw [List.mem_append, List.mem_append, List.mem_cons, List.mem_cons, h q w]
  tauto

/-- Dropping an entry; its neighbour on the left may take its place. -/
theorem Drops.here (hs : Sorted (xs ++ (k, v) :: ys)) :
    Drops k (xs ++ (k, v) :: ys) (xs ++ ys) ∧ Sorted (xs ++ ys) := by
  obtain ⟨h1, h2, h3, h4, h5⟩ := sorted_around.1 hs
  refine ⟨fun q w => ?_, List.pairwise_append.2 ⟨h1, h2, h5⟩⟩
  have hleft : (q, w) ∈ xs → q ≠ k := fun hm => ne_of_lt (h3 _ hm)
  have hright : (q, w) ∈ ys → q ≠ k := fun hm => (ne_of_lt (h4 _ hm)).symm
  simp only [List.mem_append, List.mem_cons, Prod.mk.injEq]
  tauto

end

end Assoc
