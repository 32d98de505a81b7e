import Mathlib.Logic.Function.Iterate
/-!
# Teletypes

A roll of paper with rows of `width` cells, and a window of `rows` rows on it.
Cells are counted along the paper, so that a cursor is one number. What is
printed stays where it is; the window moves down by a row when the cursor
leaves it at the end, and never up.
-/

namespace Teletype

structure Tty (α : Type*) where
  paper : Nat → α
  /-- The cell that is printed next. -/
  pos : Nat
  /-- The first row in the window. -/
  top : Nat

variable {α : Type*} (width rows : Nat)

/-- The cursor is in the window, and the paper is blank below it. -/
structure Tty.Fits (blank : α) (t : Tty α) : Prop where
  above : width * t.top ≤ t.pos
  below : t.pos < width * (t.top + rows)
  blank : ∀ i, width * (t.top + rows) ≤ i → t.paper i = blank

namespace Tty

/-- The cursor moves, and the window with it. -/
def move (t : Tty α) (pos : Nat) : Tty α :=
  { t with pos := pos, top := if pos < width * (t.top + rows) then t.top else t.top + 1 }

def write (t : Tty α) (a : α) : Tty α := { t with paper := Function.update t.paper t.pos a }

def type (a : α) (t : Tty α) : Tty α := (t.write a).move width rows (t.pos + 1)

def newline (t : Tty α) : Tty α := t.move width rows (width * (t.pos / width + 1))

def home (t : Tty α) : Tty α := { t with pos := width * (t.pos / width) }

/-- There is no cell in front of the window. -/
def back (t : Tty α) : Option (Tty α) := if t.pos = width * t.top then none else some { t with pos := t.pos - 1 }

/-- Blanks up to the next tab stop. -/
def tab (a : α) (stop : Nat) (t : Tty α) : Tty α := Nat.iterate (type width rows a) (stop - t.pos % stop) t

theorem move_in {width rows : Nat} {t : Tty α} {pos : Nat} (h : pos < width * (t.top + rows)) :
    t.move width rows pos = { t with pos := pos } := by
  rw [move, if_pos h]

namespace Fits
variable {width rows} {blank : α} {t : Tty α}

theorem move (h : t.Fits width rows blank) (pos : Nat) (hrows : 0 < rows) (habove : width * t.top ≤ pos)
    (hbelow : pos < width * (t.top + rows + 1)) : (t.move width rows pos).Fits width rows blank := by
  have hnext : t.top + 1 + rows = t.top + rows + 1 := Nat.add_right_comm ..
  unfold Tty.move
  split
  · next hlt => exact ⟨habove, hlt, h.blank⟩
  · next hle =>
    have hle := Nat.le_of_not_lt hle
    have hrow : t.top + 1 ≤ t.top + rows := by omega
    refine ⟨Nat.le_trans (Nat.mul_le_mul_left _ hrow) hle, ?_, ?_⟩
    · change pos < width * (t.top + 1 + rows)
      rw [hnext]
      exact hbelow
    · intro i hi
      apply h.blank
      change width * (t.top + 1 + rows) ≤ i at hi
      exact Nat.le_trans (Nat.mul_le_mul_left _ (by omega)) hi

theorem write (h : t.Fits width rows blank) (a : α) : (t.write a).Fits width rows blank := by
  refine ⟨h.above, h.below, fun i hi => ?_⟩
  have hne : i ≠ t.pos := Nat.ne_of_gt (Nat.lt_of_lt_of_le h.below hi)
  exact (Function.update_of_ne hne ..).trans (h.blank i hi)

end Fits

end Tty

end Teletype
