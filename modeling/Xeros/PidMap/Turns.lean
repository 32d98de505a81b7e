import Xeros.PidMap.Sound
/-!
# What a right turn loses

A turn to the right drops the node it should move down, so an insertion that
turns right ends with no more entries than it began with (`insert_turned`). This
holds where the stored heights fit an `int`: otherwise the tests that decide
on a turn would overflow.
-/

namespace Xeros

open TreeNode

namespace TreeNode

/-- Every stored height is at most `b`. -/
def HeightsLe (b : Nat) : TreeNode → Prop
  | .null => True
  | .node _ _ _ h left right => h.toNat ≤ b ∧ left.HeightsLe b ∧ right.HeightsLe b

namespace HeightsLe
variable {b c : Nat} {t left right : TreeNode} {a p i h : Word}

theorem mono (ht : t.HeightsLe b) (hbc : b ≤ c) : t.HeightsLe c := by
  induction t with
  | null => trivial
  | node a p i h left right ihl ihr =>
    obtain ⟨hh, hl, hr⟩ := ht
    exact ⟨Nat.le_trans hh hbc, ihl hl, ihr hr⟩

theorem heightOf (ht : t.HeightsLe b) : t.heightOf.toNat ≤ b := by
  cases t with
  | null => exact Nat.zero_le _
  | node a p i h left right => exact ht.1

theorem updateHeight (hl : left.HeightsLe b) (hr : right.HeightsLe b) (hb : b + 1 < 2 ^ 32) :
    (updateHeight (.node a p i h left right)).HeightsLe (b + 1) := by
  refine ⟨?_, hl.mono (Nat.le_succ b), hr.mono (Nat.le_succ b)⟩
  have h1 := hl.heightOf
  have h2 := hr.heightOf
  split <;> bv_omega

theorem rotateLeft (ht : t.HeightsLe b) (hb : b + 2 < 2 ^ 32) : (rotateLeft t).HeightsLe (b + 2) := by
  cases t with
  | null => trivial
  | node a p i h left right =>
    cases right with
    | null => exact ht.mono (Nat.le_add_right b 2)
    | node a' p' i' h' left' right' =>
      obtain ⟨-, hl, -, hl', hr'⟩ := ht
      exact (hl.updateHeight (h := h) hl' (by omega)).updateHeight (h := h') (hr'.mono (Nat.le_succ b)) hb

theorem rotateRight (ht : t.HeightsLe b) (hb : b + 1 < 2 ^ 32) : (rotateRight t).HeightsLe (b + 1) := by
  cases t with
  | null => trivial
  | node a p i h left right =>
    cases left with
    | null => exact ht.mono (Nat.le_succ b)
    | node a' p' i' h' left' right' =>
      obtain ⟨-, ⟨-, hl', hr'⟩, -⟩ := ht
      exact hl'.updateHeight (h := h') hr' hb

theorem rebalance (ht : t.HeightsLe b) (hb : b + 3 < 2 ^ 32) : (rebalance t).HeightsLe (b + 3) := by
  cases t with
  | null => trivial
  | node a p i h left right =>
    obtain ⟨hh, hl, hr⟩ := ht
    rw [Xeros.rebalance]
    split
    · have hl' : (if balanceFactor left < 0 then Xeros.rotateLeft left else left).HeightsLe (b + 2) := by
        split
        · exact hl.rotateLeft (by omega)
        · exact hl.mono (by omega)
      exact rotateRight (b := b + 2) ⟨by omega, hl', hr.mono (by omega)⟩ hb
    · split
      · have hr' : (if 0 < balanceFactor right then Xeros.rotateRight right else right).HeightsLe (b + 1) := by
          split
          · exact hr.rotateRight (by omega)
          · exact hr.mono (by omega)
        exact rotateLeft (b := b + 1) ⟨by omega, hl.mono (by omega), hr'⟩ hb
      · exact ⟨by omega, hl.mono (by omega), hr.mono (by omega)⟩

end HeightsLe

end TreeNode

/-! ## Counting entries -/

variable {t t' left right : TreeNode} {a p i h pid idx : Word} {b : Nat}

/-- A subtree that is higher than another one is not empty. -/
theorem ne_null_of_higher (hr : right.HeightsLe (2 ^ 31)) (hlt : 0 < (left.heightOf - right.heightOf).toInt) :
    left ≠ .null := by
  rintro rfl
  have hle := hr.heightOf
  have h0 : TreeNode.null.heightOf = 0 := rfl
  rw [h0, BitVec.toInt_eq_toNat_cond] at hlt
  split at hlt <;> bv_omega

theorem length_rotateRight (hl : left ≠ .null) :
    (rotateRight (.node a p i h left right)).entries.length < (node a p i h left right).entries.length := by
  cases left with
  | null => exact absurd rfl hl
  | node a' p' i' h' left' right' =>
    rw [rotateRight, entries_updateHeight]
    simp only [entries, List.length_append, List.length_cons]
    omega

/-- A right turn loses an entry. -/
theorem length_rebalance (hl : left.HeightsLe (2 ^ 31)) (hr : right.HeightsLe (2 ^ 31))
    (ht : turnsRight (.node a p i h left right) = true) :
    (rebalance (.node a p i h left right)).entries.length < (node a p i h left right).entries.length := by
  simp only [turnsRight, Bool.or_eq_true, decide_eq_true_eq] at ht
  rw [rebalance]
  split
  · next hb =>
    have hne : left ≠ .null := ne_null_of_higher hr (Int.lt_trans Int.zero_lt_one hb)
    set left' := if balanceFactor left < 0 then rotateLeft left else left with hleft
    have he : left'.entries = left.entries := by
      rw [hleft]
      split
      · exact entries_rotateLeft left
      · rfl
    have hne' : left' ≠ .null := by
      intro e
      rw [e] at he
      cases left with
      | null => exact hne rfl
      | node => simp [entries] at he
    have hlt : (rotateRight (.node a p i h left' right)).entries.length < (node a p i h left' right).entries.length :=
      length_rotateRight hne'
    simp only [entries, List.length_append, List.length_cons, he] at hlt ⊢
    exact hlt
  · next hb =>
    obtain ⟨hb', hright⟩ := ht.resolve_left hb
    rw [if_pos hb', if_pos hright, entries_rotateLeft]
    cases right with
    | null => exact absurd hright (Int.lt_irrefl 0)
    | node a' p' i' h' left' right' =>
      have hlt : (rotateRight (.node a' p' i' h' left' right')).entries.length <
          (node a' p' i' h' left' right').entries.length := length_rotateRight (ne_null_of_higher hr.2.2 hright)
      simp only [entries, List.length_append, List.length_cons] at hlt ⊢
      omega

/-! ## Insertion -/

/-- An insertion adds an entry at most, and none when it turns right. -/
structure Turned (t t' : TreeNode) (pid : Word) (b : Nat) : Prop where
  heights : t'.HeightsLe (b + 4 * (t.entries.length + 1))
  length : t'.entries.length ≤ t.entries.length + 1
  turned : insertTurnsRight t pid = true → t'.entries.length ≤ t.entries.length

/-- One step of the way up: a subtree has changed, and the node is rebalanced. -/
theorem turned_up {n : Nat} (turn : Bool) (hl : left.HeightsLe n) (hr : right.HeightsLe n) (hn : n + 4 ≤ 2 ^ 31)
    (hlen : (node a p i h left right).entries.length ≤ t.entries.length + 1)
    (hturn : turn = true → (node a p i h left right).entries.length ≤ t.entries.length)
    (hins : insertTurnsRight t pid = (turn || turnsRight (updateHeight (.node a p i h left right))))
    (hb : n + 4 ≤ b + 4 * (t.entries.length + 1)) :
    Turned t (rebalance (updateHeight (.node a p i h left right))) pid b := by
  have hu : (updateHeight (.node a p i h left right)).HeightsLe (n + 1) := hl.updateHeight hr (by omega)
  have hsub := (entries_rebalance_sublist (updateHeight (.node a p i h left right))).length_le
  rw [entries_updateHeight] at hsub
  refine ⟨(hu.rebalance (by omega)).mono hb, Nat.le_trans hsub hlen, fun ht => ?_⟩
  rw [hins, Bool.or_eq_true] at ht
  rcases ht with ht | ht
  · exact Nat.le_trans hsub (hturn ht)
  · have hlt := length_rebalance (hl.mono (by omega)) (hr.mono (by omega)) ht
    exact Nat.le_of_lt_succ (Nat.lt_of_lt_of_le hlt hlen)

theorem insert_turned {hp hp' : Heap} (hb : t.HeightsLe b) (hroom : b + 4 * (t.entries.length + 1) ≤ 2 ^ 31)
    (hi : insert hp t pid idx = some (t', hp')) : Turned t t' pid b := by
  induction t generalizing hp hp' t' with
  | null =>
    simp only [insert, Option.bind_eq_bind, Option.bind_eq_some_iff] at hi
    obtain ⟨⟨x, h1⟩, -, hi⟩ := hi
    split at hi
    · cases hi
    · cases hi
      refine ⟨⟨?_, trivial, trivial⟩, Nat.le_refl _, fun ht => by cases ht⟩
      have h1 : BitVec.toNat (1 : Word) = 1 := rfl
      rw [h1]
      omega
  | node a p i ht left right ihl ihr =>
    obtain ⟨hba, hbl, hbr⟩ := hb
    have hlen : (node a p i ht left right).entries.length = left.entries.length + right.entries.length + 1 := by
      simp only [entries, List.length_append, List.length_cons]
      omega
    rw [hlen] at hroom
    unfold insert at hi
    split at hi
    · next hlt =>
      obtain ⟨⟨r, h1⟩, hins, hi⟩ := Option.bind_eq_some_iff.1 hi
      cases hi
      obtain ⟨hh, hle, hturn⟩ := ihr hbr (by omega) hins
      refine turned_up (insertTurnsRight right pid) (hbl.mono (Nat.le_add_right b _)) hh (by omega) ?_ (fun e => ?_) ?_ ?_
      · simp only [entries, List.length_append, List.length_cons]
        omega
      · have := hturn e
        simp only [entries, List.length_append, List.length_cons]
        omega
      · rw [insertTurnsRight, if_pos hlt, ← insert_shape hins,
          ← turnsRight_shape (updateHeight (.node a p i ht left r)), shape_updateHeight]
        rfl
      · rw [hlen]
        omega
    · next hnlt =>
      split at hi
      · next hlt =>
        obtain ⟨⟨l, h1⟩, hins, hi⟩ := Option.bind_eq_some_iff.1 hi
        cases hi
        obtain ⟨hh, hle, hturn⟩ := ihl hbl (by omega) hins
        refine turned_up (insertTurnsRight left pid) hh (hbr.mono (Nat.le_add_right b _)) (by omega) ?_ (fun e => ?_) ?_ ?_
        · simp only [entries, List.length_append, List.length_cons]
          omega
        · have := hturn e
          simp only [entries, List.length_append, List.length_cons]
          omega
        · rw [insertTurnsRight, if_neg hnlt, if_pos hlt, ← insert_shape hins,
            ← turnsRight_shape (updateHeight (.node a p i ht l right)), shape_updateHeight]
          rfl
        · rw [hlen]
          omega
      · next hngt =>
        cases hi
        have hle : b ≤ b + 4 * ((node a p i ht left right).entries.length + 1) := Nat.le_add_right b _
        refine ⟨⟨Nat.le_trans hba hle, hbl.mono hle, hbr.mono hle⟩, ?_, fun e => ?_⟩
        · simp only [entries, List.length_append, List.length_cons]
          omega
        · rw [insertTurnsRight, if_neg hnlt, if_neg hngt] at e
          cases e

end Xeros
