import Mathlib.Data.List.Basic
import Mathlib.Tactic.Common
/-!
# Reading line by line

A read of at most `n` elements ends behind the first line end, before the first
end mark, which it takes without delivering it, or when it has `n` elements.
What it delivers is the shortest prefix that ends so (`taken_shortest`), and a
read that is served in parts delivers the same (`taken_append`).
-/

namespace Lines

variable {α : Type} (mark nl : α → Prop)

/-- There is enough for a read of `n`. -/
def Complete (n : Nat) (w : List α) : Prop := (∃ c ∈ w, nl c ∨ mark c) ∨ n ≤ w.length

/-- The prefix `xs` ends in a line end, stands before an end mark, or has `n` elements. -/
def Stops (n : Nat) (w xs : List α) : Prop :=
  xs <+: w ∧ ((∃ c, xs.getLast? = some c ∧ nl c) ∨ (∃ c, xs ++ [c] <+: w ∧ mark c) ∨ xs.length = n)

section
variable {mark nl} {n : Nat} {c : α} {w : List α}

theorem complete_nil : Complete mark nl n [] ↔ n = 0 := by simp [Complete]

theorem complete_cons (hm : ¬mark c) (hn : ¬nl c) : Complete mark nl (n + 1) (c :: w) ↔ Complete mark nl n w := by
  simp [Complete, hm, hn]

theorem complete_of_stop (h : nl c ∨ mark c) : Complete mark nl n (c :: w) := .inl ⟨c, List.mem_cons_self, h⟩

end

variable [DecidablePred mark] [DecidablePred nl]

instance (n : Nat) (w : List α) : Decidable (Complete mark nl n w) := inferInstanceAs (Decidable (_ ∨ _))

/-- The elements a read of at most `n` delivers. -/
def taken : Nat → List α → List α
  | 0, _ => []
  | _ + 1, [] => []
  | n + 1, c :: w => if mark c then [] else if nl c then [c] else c :: taken n w

/-- The end mark, if the read takes it. -/
def ended : Nat → List α → List α
  | 0, _ => []
  | _ + 1, [] => []
  | n + 1, c :: w => if mark c then [c] else if nl c then [] else ended n w

/-- The elements it leaves. -/
def left : Nat → List α → List α
  | 0, w => w
  | _ + 1, [] => []
  | n + 1, c :: w => if mark c then w else if nl c then w else left n w

variable {mark nl} {n : Nat} {u w : List α}

theorem taken_ended_left (n : Nat) (w : List α) : taken mark nl n w ++ ended mark nl n w ++ left mark nl n w = w := by
  induction n, w using taken.induct mark nl with
  | case1 w => simp [taken, ended, left]
  | case2 n => simp [taken, ended, left]
  | case3 n c w hm => simp [taken, ended, left, hm]
  | case4 n c w hm hn => simp [taken, ended, left, hm, hn]
  | case5 n c w hm hn ih => simpa [taken, ended, left, hm, hn] using ih

theorem length_taken_le (n : Nat) (w : List α) : (taken mark nl n w).length ≤ n := by
  induction n, w using taken.induct mark nl with
  | case1 w => simp [taken]
  | case2 n => simp [taken]
  | case3 n c w hm => simp [taken, hm]
  | case4 n c w hm hn => simp [taken, hm, hn]
  | case5 n c w hm hn ih => simpa [taken, hm, hn] using ih

/-! ## A read in parts -/

/-- Elements that do not complete the read are delivered, and the read goes on. -/
theorem parts (hu : ¬Complete mark nl n u) (w : List α) :
    taken mark nl n (u ++ w) = u ++ taken mark nl (n - u.length) w ∧
      ended mark nl n (u ++ w) = ended mark nl (n - u.length) w ∧
      left mark nl n (u ++ w) = left mark nl (n - u.length) w ∧
      (Complete mark nl n (u ++ w) ↔ Complete mark nl (n - u.length) w) := by
  induction u generalizing n with
  | nil => simp
  | cons c u ih =>
    have hstop : ¬(nl c ∨ mark c) := fun h => hu (complete_of_stop h)
    obtain ⟨hn, hm⟩ := not_or.1 hstop
    cases n with
    | zero => exact absurd (.inr (Nat.zero_le _)) hu
    | succ n =>
      obtain ⟨h1, h2, h3, h4⟩ := ih fun h => hu ((complete_cons hm hn).2 h)
      have hlen : n + 1 - (c :: u).length = n - u.length := by simp
      rw [hlen, List.cons_append]
      refine ⟨?_, ?_, ?_, ?_⟩
      · simp only [taken, if_neg hm, if_neg hn, h1, List.cons_append]
      · simp only [ended, if_neg hm, if_neg hn, h2]
      · simp only [left, if_neg hm, if_neg hn, h3]
      · rw [complete_cons hm hn, h4]

/-- What does not complete the read is delivered whole. -/
theorem incomplete (hw : ¬Complete mark nl n w) :
    taken mark nl n w = w ∧ ended mark nl n w = [] ∧ left mark nl n w = [] := by
  obtain ⟨h1, h2, h3, -⟩ := parts hw []
  rw [List.append_nil] at h1 h2 h3
  have hpos : ∃ m, n - w.length = m + 1 := by
    have hlt : ¬n ≤ w.length := fun h => hw (.inr h)
    exact ⟨n - w.length - 1, by omega⟩
  obtain ⟨m, hm⟩ := hpos
  rw [hm] at h1 h2 h3
  exact ⟨by simpa [taken] using h1, h2, h3⟩

/-! ## The shortest prefix -/

theorem taken_stops (hw : Complete mark nl n w) : Stops mark nl n w (taken mark nl n w) := by
  induction n, w using taken.induct mark nl with
  | case1 w => exact ⟨List.nil_prefix, .inr (.inr rfl)⟩
  | case2 n => exact absurd (complete_nil.1 hw) (Nat.succ_ne_zero n)
  | case3 n c w hm =>
    rw [taken, if_pos hm]
    exact ⟨List.nil_prefix, .inr (.inl ⟨c, by simp, hm⟩)⟩
  | case4 n c w hm hn =>
    rw [taken, if_neg hm, if_pos hn]
    exact ⟨by simp, .inl ⟨c, rfl, hn⟩⟩
  | case5 n c w hm hn ih =>
    rw [taken, if_neg hm, if_neg hn]
    obtain ⟨hpre, hstop⟩ := ih ((complete_cons hm hn).1 hw)
    refine ⟨by simpa using hpre, ?_⟩
    rcases hstop with ⟨d, hlast, hd⟩ | ⟨d, hd, hmd⟩ | hlen
    · refine .inl ⟨d, ?_, hd⟩
      rw [List.getLast?_cons, hlast]
      rfl
    · exact .inr (.inl ⟨d, by simpa using hd, hmd⟩)
    · exact .inr (.inr (by simp [hlen]))

/-- Every prefix that ends so is at least as long. -/
theorem taken_le {xs : List α} (h : Stops mark nl n w xs) : (taken mark nl n w).length ≤ xs.length := by
  induction n, w using taken.induct mark nl generalizing xs with
  | case1 w => simp [taken]
  | case2 n => simp [taken]
  | case3 n c w hm => simp [taken, hm]
  | case4 n c w hm hn =>
    rw [taken, if_neg hm, if_pos hn]
    obtain ⟨hpre, hstop⟩ := h
    cases xs with
    | nil =>
      rcases hstop with ⟨d, hlast, -⟩ | ⟨d, hd, hmd⟩ | hlen
      · cases hlast
      · obtain ⟨rfl, -⟩ := by simpa using hd
        exact absurd hmd hm
      · cases hlen
    | cons d xs => simp
  | case5 n c w hm hn ih =>
    rw [taken, if_neg hm, if_neg hn]
    obtain ⟨hpre, hstop⟩ := h
    cases xs with
    | nil =>
      rcases hstop with ⟨d, hlast, -⟩ | ⟨d, hd, hmd⟩ | hlen
      · cases hlast
      · obtain ⟨rfl, -⟩ := by simpa using hd
        exact absurd hmd hm
      · cases hlen
    | cons d xs =>
      obtain ⟨rfl, htail⟩ := List.cons_prefix_cons.1 hpre
      simp only [List.length_cons, Nat.add_le_add_iff_right]
      refine ih ⟨htail, ?_⟩
      rcases hstop with ⟨e, hlast, he⟩ | ⟨e, he, hme⟩ | hlen
      · cases xs with
        | nil =>
          obtain rfl : d = e := by simpa using hlast
          exact absurd he hn
        | cons x xs => exact .inl ⟨e, by simpa using hlast, he⟩
      · exact .inr (.inl ⟨e, by simpa using he, hme⟩)
      · exact .inr (.inr (by simpa using hlen))

/-- The end mark is taken when the prefix is neither full nor a line. -/
theorem ended_eq (hw : Complete mark nl n w) :
    (ended mark nl n w = [] ∧ ((taken mark nl n w).length = n ∨ ∃ c, (taken mark nl n w).getLast? = some c ∧ nl c)) ∨
      ∃ c, mark c ∧ ended mark nl n w = [c] ∧ (taken mark nl n w).length < n ∧
        ¬∃ c, (taken mark nl n w).getLast? = some c ∧ nl c := by
  induction n, w using taken.induct mark nl with
  | case1 w => exact .inl ⟨rfl, .inl rfl⟩
  | case2 n => exact absurd (complete_nil.1 hw) (Nat.succ_ne_zero n)
  | case3 n c w hm =>
    rw [taken, ended, if_pos hm, if_pos hm]
    exact .inr ⟨c, hm, rfl, by simp, by simp⟩
  | case4 n c w hm hn =>
    rw [taken, ended, if_neg hm, if_pos hn, if_neg hm, if_pos hn]
    exact .inl ⟨rfl, .inr ⟨c, rfl, hn⟩⟩
  | case5 n c w hm hn ih =>
    rw [taken, ended, if_neg hm, if_neg hn, if_neg hm, if_neg hn]
    have hlast : (∃ d, (c :: taken mark nl n w).getLast? = some d ∧ nl d) ↔
        ∃ d, (taken mark nl n w).getLast? = some d ∧ nl d := by
      rw [List.getLast?_cons]
      cases (taken mark nl n w).getLast? with
      | none => simp [hn]
      | some d => simp
    rw [hlast]
    rcases ih ((complete_cons hm hn).1 hw) with ⟨he, h⟩ | ⟨d, hd, he, hlen, hno⟩
    · exact .inl ⟨he, by simpa using h⟩
    · exact .inr ⟨d, hd, he, by simpa using hlen, hno⟩

end Lines
