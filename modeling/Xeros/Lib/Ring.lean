import Mathlib.Logic.Function.Basic
import Mathlib.Data.List.Basic
import Mathlib.Data.Nat.ModEq
import Mathlib.Tactic.Common
/-!
# Circular buffers

An array of `n` cells with the index of the oldest element and the number of
elements. `contents` is the queue it holds: a write behind the last element
appends, and moving the index drops the oldest.
-/

namespace Ring

variable {α : Type} {n : Nat} [NeZero n] {buf : Fin n → α} {head size : Nat}

/-- The elements, oldest first. -/
def contents (buf : Fin n → α) (head size : Nat) : List α :=
  (List.range size).map fun i => buf (Fin.ofNat n (head + i))

@[simp] theorem length_contents : (contents buf head size).length = size := by
  simp [contents]

@[simp] theorem contents_zero : contents buf head 0 = [] := rfl

/-- Less than a whole turn leads to another cell. -/
theorem ofNat_ne {i j : Nat} (hij : i < j) (hj : j < n) : Fin.ofNat n (head + i) ≠ Fin.ofNat n (head + j) := by
  intro h
  have hmod : (head + i) % n = (head + j) % n := by simpa [Fin.ofNat] using h
  have hcancel : i % n = j % n := Nat.ModEq.add_left_cancel' head hmod
  rw [Nat.mod_eq_of_lt (by omega), Nat.mod_eq_of_lt hj] at hcancel
  omega

theorem contents_push (h : size < n) (c : α) :
    contents (Function.update buf (Fin.ofNat n (head + size)) c) head (size + 1) = contents buf head size ++ [c] := by
  rw [contents, List.range_succ, List.map_append, List.map_singleton, Function.update_self]
  congr 1
  apply List.map_congr_left
  intro i hi
  exact Function.update_of_ne (ofNat_ne (List.mem_range.1 hi) h) ..

theorem contents_pop :
    contents buf head (size + 1) = buf (Fin.ofNat n head) :: contents buf ((head + 1) % n) size := by
  rw [contents, List.range_succ_eq_map, List.map_cons, List.map_map]
  congr 1
  apply List.map_congr_left
  intro i _
  have he : head + (i + 1) = head + 1 + i := by omega
  simp [Fin.ofNat, he]

end Ring
