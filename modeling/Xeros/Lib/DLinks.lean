import Mathlib.Data.List.Chain
import Mathlib.Data.List.Nodup
import Mathlib.Tactic.Common
/-!
# Doubly linked lists

Nodes carry a forward and a backward pointer, and `null` ends a list on both
sides. The head of the list is the forward pointer of `null`, so "the pointer
in front of a node" is always the forward pointer of something.

`DList P null l` says that the list is `l` in both directions, and
`FList P null l` that it is `l` in forward direction. The one rule for edits is
`splice`: it replaces a part of the list, given the pointers across the new
part, when all other pointers of the list are kept.
-/

namespace DLinks

variable {α : Type}

structure Ptrs (α : Type) where
  fw : α → α
  bk : α → α

/-- `y` follows `x`, in both directions. -/
def Adj (P : Ptrs α) (null x y : α) : Prop := P.fw x = y ∧ (y ≠ null → P.bk y = x)

instance [DecidableEq α] (P : Ptrs α) (null x y : α) : Decidable (Adj P null x y) := inferInstanceAs (Decidable (_ ∧ _))

structure DList (P : Ptrs α) (null : α) (l : List α) : Prop where
  chain : (null :: l ++ [null]).IsChain (Adj P null)
  nodup : (null :: l).Nodup

structure FList (P : Ptrs α) (null : α) (l : List α) : Prop where
  chain : (null :: l ++ [null]).IsChain fun x y => P.fw x = y
  nodup : (null :: l).Nodup

/-- A chain only speaks about its neighbours. -/
theorem isChain_congr {R S : α → α → Prop} {l : List α} (h : l.IsChain R)
    (H : ∀ a ∈ l.dropLast, ∀ b ∈ l.tail, R a b → S a b) : l.IsChain S := by
  induction l with
  | nil => exact .nil
  | cons a l ih =>
    cases l with
    | nil => exact .singleton a
    | cons b l =>
      rw [List.isChain_cons_cons] at h ⊢
      refine ⟨H a (by simp [List.dropLast]) b (by simp) h.1, ih h.2 fun x hx y hy => H x ?_ y ?_⟩
      · simp only [List.dropLast]; exact List.mem_cons_of_mem _ hx
      · exact List.mem_of_mem_tail hy

/-- A chain around its part `ms`. -/
theorem isChain_around {R : α → α → Prop} {zs ms ws : List α} {q r : α} :
    (zs ++ q :: (ms ++ r :: ws)).IsChain R ↔
      (zs ++ [q]).IsChain R ∧ (q :: ms ++ [r]).IsChain R ∧ (r :: ws).IsChain R := by
  have h : (q :: (ms ++ r :: ws)).IsChain R ↔ (q :: ms ++ [r]).IsChain R ∧ (r :: ws).IsChain R :=
    @List.isChain_split _ R r (q :: ms) ws
  rw [List.isChain_split, h]

theorem eq_concat_getLastD (a : α) (l : List α) : ∃ zs, a :: l = zs ++ [l.getLastD a] := by
  induction l generalizing a with
  | nil => exact ⟨[], rfl⟩
  | cons b l ih =>
    obtain ⟨zs, h⟩ := ih b
    refine ⟨a :: zs, ?_⟩
    rw [List.getLastD_cons, List.cons_append, ← h]

theorem eq_cons_headD (a : α) (l : List α) : ∃ ws, l ++ [a] = l.headD a :: ws := by
  cases l with
  | nil => exact ⟨[], rfl⟩
  | cons b l => exact ⟨l ++ [a], rfl⟩

theorem getLastD_mem (a : α) (l : List α) : l.getLastD a = a ∨ l.getLastD a ∈ l := by
  obtain ⟨zs, h⟩ := eq_concat_getLastD a l
  have : l.getLastD a ∈ a :: l := by rw [h]; simp
  simpa using this

theorem headD_mem (a : α) (l : List α) : l.headD a = a ∨ l.headD a ∈ l := by
  cases l with
  | nil => exact .inl rfl
  | cons b l => exact .inr (by simp)

/-- A part of a chain is replaced, and all other links are kept. -/
theorem isChain_splice {R R' : α → α → Prop} {null : α} {xs os ns ys : List α}
    (h : (null :: (xs ++ os ++ ys) ++ [null]).IsChain R) (hnd : (null :: (xs ++ ys)).Nodup)
    (hkeep : ∀ x ∈ null :: (xs ++ ys), x ≠ xs.getLastD null →
      ∀ y, y ∈ xs ++ ys ∧ y ≠ ys.headD null ∨ y = null → R x y → R' x y)
    (hmid : (xs.getLastD null :: ns ++ [ys.headD null]).IsChain R') :
    (null :: (xs ++ ns ++ ys) ++ [null]).IsChain R' := by
  obtain ⟨zs, hz⟩ := eq_concat_getLastD null xs
  obtain ⟨ws, hw⟩ := eq_cons_headD null ys
  set q := xs.getLastD null
  set r := ys.headD null
  have hnull : null ∉ xs ++ ys := (List.nodup_cons.1 hnd).1
  have hndy : (xs ++ ys).Nodup := (List.nodup_cons.1 hnd).2
  have hnd0 : (zs ++ [q]).Nodup := by
    rw [← hz]
    exact hnd.sublist (List.cons_sublist_cons.2 (List.sublist_append_left ..))
  have split : ∀ ms : List α, null :: (xs ++ ms ++ ys) ++ [null] = zs ++ q :: (ms ++ r :: ws) := by
    intro ms
    rw [show null :: (xs ++ ms ++ ys) ++ [null] = (null :: xs) ++ (ms ++ (ys ++ [null])) by simp, hz, hw]
    simp
  rw [split, isChain_around] at h
  rw [split, isChain_around]
  refine ⟨isChain_congr h.1 ?_, hmid, isChain_congr h.2.2 ?_⟩
  · -- in front of the edit: no node there is `q`, and none is pointed back from `r`
    intro x hx y hy
    rw [List.dropLast_concat] at hx
    have hxm : x ∈ null :: xs := by
      rw [hz]
      exact List.mem_append_left _ hx
    have hxq : x ≠ q := by
      rintro rfl
      exact (List.nodup_append.1 hnd0).2.2 q hx q (by simp) rfl
    have hym : y ∈ xs := by
      have : y ∈ (null :: xs).tail := hz ▸ hy
      simpa using this
    refine hkeep x ?_ hxq y (.inl ⟨List.mem_append_left _ hym, ?_⟩)
    · rcases List.mem_cons.1 hxm with rfl | hx'
      · simp
      · simp [hx']
    · rintro rfl
      rcases headD_mem null ys with e | hr
      · exact hnull (e ▸ List.mem_append_left _ hym)
      · exact (List.nodup_append.1 hndy).2.2 r hym r hr rfl
  · intro x hx y hy
    rw [← hw, List.dropLast_concat] at hx
    have hyw : y ∈ ws := hy
    refine hkeep x (by simp [hx]) ?_ y ?_
    · rintro rfl
      rcases getLastD_mem null xs with e | hq
      · exact hnull (e ▸ List.mem_append_right _ hx)
      · exact (List.nodup_append.1 hndy).2.2 q hq q hx rfl
    · cases ys with
      | nil => cases hx
      | cons y' ys =>
        have e : ys ++ [null] = ws := by simpa [r] using hw
        rw [← e] at hyw
        rcases List.mem_append.1 hyw with hy' | hy'
        · refine .inl ⟨by simp [hy'], ?_⟩
          rintro rfl
          exact (List.nodup_cons.1 (List.nodup_append.1 hndy).2.1).1 hy'
        · exact .inr (List.mem_singleton.1 hy')

/-! ## Forward lists -/

namespace FList
variable {P P' : Ptrs α} {null : α} {xs ys : List α}

/-- The pointer to a listed node, and the one it holds. -/
theorem at_node {n : α} (h : FList P null (xs ++ n :: ys)) :
    P.fw (xs.getLastD null) = n ∧ P.fw n = ys.headD null := by
  obtain ⟨zs, hz⟩ := eq_concat_getLastD null xs
  obtain ⟨ws, hw⟩ := eq_cons_headD null ys
  have hc := h.chain
  rw [show null :: (xs ++ n :: ys) ++ [null] = (null :: xs) ++ n :: (ys ++ [null]) by simp, hz, hw,
    List.append_assoc, List.singleton_append, List.isChain_split, List.isChain_cons_cons,
    List.isChain_cons_cons] at hc
  exact ⟨hc.2.1, hc.2.2.1⟩

/-- The forward pointer of `null` is the head. -/
theorem head {l : List α} (h : FList P null l) : P.fw null = l.headD null := by
  obtain ⟨ws, hw⟩ := eq_cons_headD null l
  have hc := h.chain
  rw [List.cons_append, hw, List.isChain_cons_cons] at hc
  exact hc.1

/-- Replaces the part `os` of a list by `ns`. -/
theorem splice {os ns : List α} (h : FList P null (xs ++ os ++ ys))
    (hfw : ∀ x ∈ null :: (xs ++ ys), x ≠ xs.getLastD null → P'.fw x = P.fw x)
    (hmid : (xs.getLastD null :: ns ++ [ys.headD null]).IsChain fun x y => P'.fw x = y)
    (hnd : (null :: (xs ++ ns ++ ys)).Nodup) : FList P' null (xs ++ ns ++ ys) := by
  refine ⟨isChain_splice h.chain ?_ (fun x hx hxq y _ hxy => (hfw x hx hxq).trans hxy) hmid, hnd⟩
  refine hnd.sublist (List.cons_sublist_cons.2 ?_)
  exact List.Sublist.append_right (List.sublist_append_left ..) _

/-- Pointers lead to one list only. -/
theorem unique {l l' : List α} (h : FList P null l) (h' : FList P null l') : l = l' := by
  have hgo : ∀ (l l' : List α) (a : α), null ∉ l → null ∉ l' → (a :: l ++ [null]).IsChain (fun x y => P.fw x = y) →
      (a :: l' ++ [null]).IsChain (fun x y => P.fw x = y) → l = l' := by
    intro l
    induction l with
    | nil =>
      intro l' a _ h0 hc hc'
      cases l' with
      | nil => rfl
      | cons b l' =>
        have e : P.fw a = null := (List.isChain_cons_cons.1 hc).1
        have e' : P.fw a = b := (List.isChain_cons_cons.1 hc').1
        exact absurd (by rw [← e, e']; exact List.mem_cons_self) h0
    | cons b l ih =>
      intro l' a h0 h0' hc hc'
      have e : P.fw a = b := (List.isChain_cons_cons.1 hc).1
      cases l' with
      | nil =>
        have e' : P.fw a = null := (List.isChain_cons_cons.1 hc').1
        exact absurd (by rw [← e', e]; exact List.mem_cons_self) h0
      | cons b' l' =>
        have e' : P.fw a = b' := (List.isChain_cons_cons.1 hc').1
        obtain rfl : b = b' := e.symm.trans e'
        simp only [List.mem_cons, not_or] at h0 h0'
        rw [ih l' b h0.2 h0'.2 (List.isChain_cons_cons.1 hc).2 (List.isChain_cons_cons.1 hc').2]
  exact hgo l l' null (List.nodup_cons.1 h.nodup).1 (List.nodup_cons.1 h'.nodup).1 h.chain h'.chain

end FList

/-! ## Lists in both directions -/

namespace DList
variable {P P' : Ptrs α} {null : α} {xs ys : List α}

theorem ne_null {l : List α} (h : DList P null l) {x : α} (hx : x ∈ l) : x ≠ null := by
  rintro rfl
  exact (List.nodup_cons.1 h.nodup).1 hx

/-- The pointers of a listed node, and the pointers to it. -/
theorem at_node {n : α} (h : DList P null (xs ++ n :: ys)) :
    P.bk n = xs.getLastD null ∧ P.fw (xs.getLastD null) = n ∧ P.fw n = ys.headD null ∧
      (ys ≠ [] → P.bk (ys.headD null) = n) := by
  have hn : n ≠ null := h.ne_null (by simp)
  obtain ⟨zs, hz⟩ := eq_concat_getLastD null xs
  obtain ⟨ws, hw⟩ := eq_cons_headD null ys
  have hc := h.chain
  rw [show null :: (xs ++ n :: ys) ++ [null] = (null :: xs) ++ n :: (ys ++ [null]) by simp, hz, hw,
    List.append_assoc, List.singleton_append, List.isChain_split, List.isChain_cons_cons,
    List.isChain_cons_cons] at hc
  obtain ⟨-, h1, h2, -⟩ := hc
  refine ⟨h1.2 hn, h1.1, h2.1, fun hy => h2.2 ?_⟩
  cases ys with
  | nil => exact absurd rfl hy
  | cons y ys => exact h.ne_null (by simp)

/-- The forward pointer of `null` is the head. -/
theorem head {l : List α} (h : DList P null l) : P.fw null = l.headD null := by
  obtain ⟨ws, hw⟩ := eq_cons_headD null l
  have hc := h.chain
  rw [List.cons_append, hw, List.isChain_cons_cons] at hc
  exact hc.1.1

/-- Replaces the part `os` of a list by `ns`. -/
theorem splice {os ns : List α} (h : DList P null (xs ++ os ++ ys))
    (hfw : ∀ x ∈ null :: (xs ++ ys), x ≠ xs.getLastD null → P'.fw x = P.fw x)
    (hbk : ∀ y ∈ xs ++ ys, y ≠ ys.headD null → P'.bk y = P.bk y)
    (hmid : (xs.getLastD null :: ns ++ [ys.headD null]).IsChain (Adj P' null))
    (hnd : (null :: (xs ++ ns ++ ys)).Nodup) : DList P' null (xs ++ ns ++ ys) := by
  refine ⟨isChain_splice h.chain ?_ (fun x hx hxq y hy hxy => ?_) hmid, hnd⟩
  · refine hnd.sublist (List.cons_sublist_cons.2 ?_)
    exact List.Sublist.append_right (List.sublist_append_left ..) _
  · refine ⟨(hfw x hx hxq).trans hxy.1, fun hyn => ?_⟩
    rcases hy with ⟨hy, hyr⟩ | hy
    · exact (hbk y hy hyr).trans (hxy.2 hyn)
    · exact absurd hy hyn

/-- The forward half of a list. -/
theorem forward {l : List α} (h : DList P null l) : FList P null l := ⟨h.chain.imp fun _ _ hxy => hxy.1, h.nodup⟩

end DList

end DLinks
