import Xeros.Procs.Wake
import Xeros.Lib.Deltas
/-!
# The list of sleepers

`sleep` and `tick` as operations on a delta list: a sleeper due at time `d`
goes behind all that are due by `d`, and a tick wakes those that are due.
-/

namespace Xeros

open Links Kernel Deltas

variable {k : Kernel} {f : Queue → List Idx} {p : Idx}

/-- The deltas as numbers. -/
def ticks (delta : Idx → Word) (i : Idx) : Nat := (delta i).toNat

/-- The time a process that calls `sleep` at time `now` is due. -/
def dueTime (now : Nat) (milliseconds : Word) : Nat := now + (milliseconds.toNat + 9) / 10

theorem sleep_ticks_toNat (ms : Word) : (sleep_ticks ms).toNat = (ms.toNat + 9) / 10 := by
  have hms := ms.isLt
  have h10 : TIME_SLICE_MS.toNat = 10 := rfl
  have h1 : (1 : Word).toNat = 1 := rfl
  have h0 : (0 : Word).toNat = 0 := rfl
  unfold sleep_ticks
  split <;> rename_i h
  · have hm : ms.toNat % 10 ≠ 0 := fun e => h (BitVec.eq_of_toNat_eq (by rw [BitVec.toNat_umod, h10, e]; rfl))
    rw [BitVec.toNat_add, BitVec.toNat_udiv, h10, h1]
    omega
  · have hm : ms.toNat % 10 = 0 := by
      have e := congrArg BitVec.toNat (not_not.1 h)
      rwa [BitVec.toNat_umod, h10] at e
    rw [BitVec.toNat_add, BitVec.toNat_udiv, h10, h0]
    omega

theorem sleep_ticks_ne {ms : Word} (h : ms ≠ 0) : sleep_ticks ms ≠ 0 := by
  have hms : ms.toNat ≠ 0 := fun e => h (BitVec.eq_of_toNat_eq e)
  intro e
  have ht := sleep_ticks_toNat ms
  rw [e] at ht
  have h0 : (0 : Word).toNat = 0 := rfl
  omega

/-! ## The walk -/

/-- A walk stops at a link of the list. -/
theorem sleep_walk_link {n : Nat} {δ δ' : Word} {l l' : PcbLink} {is : List Idx} (h : Chain k.links l is)
    (hw : sleep_walk k n δ l = some (δ', l')) : ∃ xs ys, is = xs ++ ys ∧ l' = tail l xs := by
  induction n generalizing δ l is with
  | zero => cases hw
  | succ n ih =>
    unfold sleep_walk at hw
    cases is with
    | nil =>
      have hl : k.links l = none := h
      rw [hl] at hw
      cases hw
      exact ⟨[], [], rfl, rfl⟩
    | cons i is =>
      rw [h.1] at hw
      simp only [] at hw
      split at hw
      · obtain ⟨xs, ys, hsplit, hl'⟩ := ih h.2 hw
        exact ⟨i :: xs, ys, by rw [hsplit]; rfl, hl'⟩
      · cases hw
        exact ⟨[], i :: is, rfl, rfl⟩

/-- The walk passes all that are due by `d`, and keeps the time from the last of them to `d`. -/
theorem sleep_walk_spec {D : List (Idx × Nat)} {l : PcbLink} {base d n : Nat} {r : Word}
    (h : Chain k.links l (D.map (·.1))) (hD : Counts (ticks k.delta) base D) (hr : base + r.toNat = d) (hn : D.length < n) :
    ∃ xs ys r', D = xs ++ ys ∧ sleep_walk k n r l = some (r', tail l (xs.map (·.1))) ∧ last base xs + r'.toNat = d ∧
      (∀ e ∈ xs, e.2 ≤ d) ∧ ∀ e ∈ ys, d < e.2 := by
  induction D generalizing l base r n with
  | nil =>
    obtain ⟨n, rfl⟩ : ∃ m, n = m + 1 := ⟨n - 1, by simp at hn; omega⟩
    have hl : k.links l = none := h
    refine ⟨[], [], r, rfl, ?_, hr, by simp, by simp⟩
    rw [sleep_walk, hl]
    rfl
  | cons e D ih =>
    simp only [List.length_cons] at hn
    obtain ⟨n, rfl⟩ : ∃ m, n = m + 1 := ⟨n - 1, by omega⟩
    have he : base + (k.delta e.1).toNat = e.2 := hD.1
    by_cases hle : k.delta e.1 ≤ r
    · have hsub : (r - k.delta e.1).toNat = r.toNat - (k.delta e.1).toNat := BitVec.toNat_sub_of_le hle
      have hle' : (k.delta e.1).toNat ≤ r.toNat := hle
      obtain ⟨xs, ys, r', hsplit, hw, hlast, hx, hy⟩ := ih h.2 hD.2 (r := r - k.delta e.1) (by omega) (n := n) (by omega)
      refine ⟨e :: xs, ys, r', by rw [hsplit]; rfl, ?_, hlast, ?_, hy⟩
      · rw [sleep_walk, h.1]
        simp only [if_pos hle]
        exact hw
      · intro e' he'
        rcases List.mem_cons.1 he' with rfl | he'
        · omega
        · exact hx e' he'
    · have hlt : r.toNat < (k.delta e.1).toNat := Nat.lt_of_not_le hle
      refine ⟨[], e :: D, r, rfl, ?_, hr, by simp, ?_⟩
      · rw [sleep_walk, h.1]
        simp only [if_neg hle]
        rfl
      · intro e' he'
        rcases List.mem_cons.1 he' with rfl | he'
        · omega
        · have := Counts.base_le hD.2 e' he'
          omega

/-! ## Insertion -/

/-- The deltas after the insertion of `p` before the head of `ys`. -/
def rebased (g : Idx → Word) (p : Idx) (δ : Word) : List Idx → Idx → Word
  | [] => Function.update g p δ
  | i :: _ => Function.update (Function.update g p δ) i (Function.update g p δ i - δ)

section rebased
variable (g : Idx → Word) (δ : Word) {i j : Idx} {is : List Idx}

theorem rebased_self (hp : p ∉ is) : rebased g p δ is p = δ := by
  cases is with
  | nil => exact Function.update_self ..
  | cons i is =>
    have hpi : p ≠ i := fun e => hp (e ▸ List.mem_cons_self)
    rw [rebased, Function.update_of_ne hpi, Function.update_self]

theorem rebased_head (hi : i ≠ p) : rebased g p δ (i :: is) i = g i - δ := by
  rw [rebased, Function.update_self, Function.update_of_ne hi]

theorem rebased_of_ne (hj : j ≠ p) (hh : is.head? ≠ some j) : rebased g p δ is j = g j := by
  cases is with
  | nil => exact Function.update_of_ne hj ..
  | cons i is =>
    have hji : j ≠ i := fun e => hh (e ▸ rfl)
    rw [rebased, Function.update_of_ne hji, Function.update_of_ne hj]

/-- The time that is left is less than the delta of the successor. -/
theorem left_lt {g : Idx → Word} {base d r : Nat} {xs ys : List (Idx × Nat)} (h : Counts (ticks g) base (xs ++ ys))
    (hr : last base xs + r = d) (hy : ∀ e ∈ ys, d < e.2) : ∀ e ∈ ys.head?, r < (g e.1).toNat := by
  intro e he
  cases ys with
  | nil => cases he
  | cons y ys =>
    obtain rfl : y = e := by simpa using he
    have h1 : last base xs + (g y.1).toNat = y.2 := (counts_append.1 h).2.1
    have h2 := hy y List.mem_cons_self
    omega

/-- The new deltas lead to the same due times, and to `d` at `p`. -/
theorem counts_rebased {g : Idx → Word} {base d : Nat} {δ : Word} {xs ys : List (Idx × Nat)}
    (h : Counts (ticks g) base (xs ++ ys)) (hnd : ((xs ++ ys).map (·.1)).Nodup) (hp : p ∉ (xs ++ ys).map (·.1))
    (hδ : last base xs + δ.toNat = d) (hy : ∀ e ∈ ys, d < e.2) :
    Counts (ticks (rebased g p δ (ys.map (·.1)))) base (xs ++ (p, d) :: ys) := by
  rw [List.map_append] at hnd hp
  obtain ⟨-, hndy, hdisj⟩ := List.nodup_append.1 hnd
  have hne : ∀ e ∈ xs ++ ys, e.1 ≠ p := by
    intro e he hep
    apply hp
    rw [← hep, ← List.map_append]
    exact List.mem_map_of_mem he
  -- only the deltas of `p` and of its successor change
  have hother : ∀ e ∈ xs ++ ys, (ys.map (·.1)).head? ≠ some e.1 →
      ticks (rebased g p δ (ys.map (·.1))) e.1 = ticks g e.1 := fun e he hh =>
    congrArg BitVec.toNat (rebased_of_ne g δ (hne e he) hh)
  refine h.insert ?_ (fun e he => ?_) (fun y hyh => ?_) fun e he => ?_
  · rwa [ticks, rebased_self g δ fun hm => hp (List.mem_append_right _ hm)]
  · apply hother e (List.mem_append_left _ he)
    intro hh
    exact hdisj _ (List.mem_map_of_mem he) _ (List.mem_of_mem_head? hh) rfl
  · have hlt := left_lt h hδ hy
    cases ys with
    | nil => cases hyh
    | cons y' ys =>
      obtain rfl : y' = y := by simpa using hyh
      have hyp : y'.1 ≠ p := hne y' (List.mem_append_right _ List.mem_cons_self)
      have h1 : last base xs + (g y'.1).toNat = y'.2 := (counts_append.1 h).2.1
      have h2 : δ.toNat < (g y'.1).toNat := hlt y' rfl
      rw [List.map_cons, ticks, rebased_head g δ hyp, BitVec.toNat_sub_of_le (BitVec.le_def.2 (Nat.le_of_lt h2))]
      omega
  · cases ys with
    | nil => cases he
    | cons y ys =>
      apply hother e (List.mem_append_right _ (List.mem_cons_of_mem _ he))
      intro hh
      have hye : y.1 = e.1 := by simpa using hh
      rw [List.map_cons, List.nodup_cons, hye] at hndy
      exact hndy.1 (List.mem_map_of_mem he)

end rebased

/-! ## A tick -/

/-- Taking one from the first delta is the passing of one tick. -/
theorem counts_tick {g : Idx → Word} {now : Nat} {e : Idx × Nat} {D : List (Idx × Nat)}
    (h : Counts (ticks g) now (e :: D)) (he : now < e.2) (hnd : e.1 ∉ D.map (·.1)) :
    Counts (ticks (Function.update g e.1 (g e.1 - 1))) (now + 1) (e :: D) := by
  have h1 : now + (g e.1).toNat = e.2 := h.1
  have hone : (1 : Word).toNat = 1 := rfl
  refine h.elapse ?_ fun e' he' => ?_
  · rw [ticks, Function.update_self, BitVec.toNat_sub_of_le (BitVec.le_def.2 (by omega)), hone]
    omega
  · have hne : e'.1 ≠ e.1 := fun hee => hnd (hee ▸ List.mem_map_of_mem he')
    rw [ticks, Function.update_of_ne hne, ticks]

/-! ## A sleep -/

/-- `sleep` puts `p` into the list at the link the walk found. -/
theorem sleep_insert (h : Family k.links f) (hp : ∀ q, p ∉ f q) {xs ys : List Idx} (hf : f .sleepers = xs ++ ys)
    {ms δ : Word} (hms : sleep_ticks ms ≠ 0)
    (hw : sleep_walk k SLEEP_FUEL (sleep_ticks ms) (.head .sleepers) = some (δ, tail (.head .sleepers) xs)) :
    ∃ k', sleep k p ms = some k' ∧ Family k'.links (Function.update f .sleepers (xs ++ p :: ys)) ∧
      k' = { k with
        sleep_list := k'.sleep_list
        next := k'.next
        delta := rebased k.delta p δ ys
        state := Function.update k.state p .SLEEPING } := by
  set l : PcbLink := tail (.head .sleepers) xs with hl
  have hc := h.chain .sleepers
  rw [hf] at hc
  have hlink : k.links l = ys.head? := by
    cases ys with
    | nil => exact (chain_append.1 hc).2
    | cons y ys => exact (chain_append.1 hc).2.1
  set k1 : Kernel := { k with next := Function.update k.next p (k.links l), delta := rebased k.delta p δ ys } with hk1
  have hrun : sleep k p ms = some { k1.assign l (some p) with
      state := Function.update (k1.assign l (some p)).state p .SLEEPING } := by
    unfold sleep
    rw [if_pos hms, hw, Option.bind_eq_bind, Option.bind_some]
    cases ys with
    | nil => simp [hk1, hlink, rebased]
    | cons y ys => simp [hk1, hlink, rebased]
  have hlinks : k1.links = Function.update k.links (.next p) (k.links l) := links_assign k (.next p) (k.links l)
  refine ⟨_, hrun, ?_, ?_⟩
  · change Family (k1.assign l (some p)).links _
    rw [links_assign, hlinks]
    exact h.insert hf hp
  · rcases tail_cases (.head Queue.sleepers) xs with ⟨-, e⟩ | ⟨i, -, e⟩ <;> rw [hl, e] <;> rfl

end Xeros
