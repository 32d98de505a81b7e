import Mathlib.Data.Fintype.Card
import Mathlib.Data.List.TakeWhile
import Mathlib.Tactic.Common
/-!
# A run queue with an idle task

One processor, tasks that wait for it in a queue, and an idle task that gets it
only when it is alone. A step of such a scheduler lets tasks join the queue at
its end, and may end the turn of the current task (`Step`). A task that waits
sees the tasks in front of it go one by one (`Path.waits`), so that it waits no
longer than there are others (`ahead_le`), and a processor with an idle task
that always comes back is never without a task (`Step.idles`).
-/

namespace RunQueue

variable {ι : Type} [DecidableEq ι]

/-- The task that has the processor, and those that wait for it. -/
structure Sched (ι : Type) where
  cur : Option ι
  queue : List ι

/-- The first task of the queue, and what is left of the queue. The idle task
steps back behind all others. -/
def pick (idle : Option ι) : List ι → Option ι × List ι
  | [] => (none, [])
  | [i] => (some i, [])
  | i :: j :: js => if idle = some i then (some j, js ++ [i]) else (some i, j :: js)

/-- The tasks `xs` join the queue; the flag says whether the turn ends then. -/
inductive Step (idle : Option ι) (xs : List ι) : Bool → Sched ι → Sched ι → Prop
  | join (s : Sched ι) : (s.queue ++ xs).Nodup → Step idle xs false s ⟨s.cur, s.queue ++ xs⟩
  | turn (s : Sched ι) : (s.queue ++ xs).Nodup →
    Step idle xs true s ⟨(pick idle (s.queue ++ xs)).1, (pick idle (s.queue ++ xs)).2⟩

/-- `n` turns have ended on the way from `s` to `t`, and `w` has not had the
processor before. -/
inductive Path (idle : Option ι) (w : ι) (s : Sched ι) : Nat → Sched ι → Prop
  | start : Path idle w s 0 s
  | next {n xs b t t'} : Path idle w s n t → t.cur ≠ some w → Step idle xs b t t' → Path idle w s (n + b.toNat) t'

/-! ## The choice -/

variable {idle : Option ι} {q xs : List ι} {w i j : ι} {s t : Sched ι} {b : Bool} {n : Nat}

theorem pick_cons (idle : Option ι) (i j : ι) (js : List ι) :
    pick idle (i :: j :: js) = if idle = some i then (some j, js ++ [i]) else (some i, j :: js) := rfl

theorem pick_perm (idle : Option ι) (q : List ι) : ((pick idle q).1.toList ++ (pick idle q).2).Perm q := by
  rcases q with _ | ⟨i, _ | ⟨j, js⟩⟩
  · exact List.Perm.refl _
  · exact List.Perm.refl _
  · rw [pick_cons]
    split
    · exact List.perm_append_singleton i (j :: js)
    · exact List.Perm.refl _

theorem pick_isSome (hq : q ≠ []) : (pick idle q).1.isSome := by
  rcases q with _ | ⟨i, _ | ⟨j, js⟩⟩
  · exact absurd rfl hq
  · rfl
  · rw [pick_cons]
    split
    · rfl
    · rfl

/-- Who is not chosen stays in the queue. -/
theorem mem_pick (hw : w ∈ q) (hne : (pick idle q).1 ≠ some w) : w ∈ (pick idle q).2 := by
  have hmem := (pick_perm idle q).mem_iff.2 hw
  rcases List.mem_append.1 hmem with h | h
  · exact absurd (Option.mem_toList.1 h) hne
  · exact h

/-! ## Waiting -/

/-- The number of tasks in front of `w`, without the idle task. -/
def ahead (idle : Option ι) (w : ι) (q : List ι) : Nat :=
  ((q.takeWhile fun i => i ≠ w).filter fun i => idle ≠ some i).length

@[simp] theorem ahead_self (idle : Option ι) (w : ι) (q : List ι) : ahead idle w (w :: q) = 0 := by
  simp [ahead]

theorem ahead_cons (h : i ≠ w) (q : List ι) :
    ahead idle w (i :: q) = (if idle = some i then 0 else 1) + ahead idle w q := by
  unfold ahead
  rw [List.takeWhile_cons_of_pos (by simpa using h)]
  by_cases hi : idle = some i
  · rw [List.filter_cons_of_neg (by simpa using hi), if_pos hi, Nat.zero_add]
  · rw [List.filter_cons_of_pos (by simpa using hi), if_neg hi, List.length_cons, Nat.add_comm]

/-- Those behind `w` do not count. -/
theorem ahead_append (hw : w ∈ q) (xs : List ι) : ahead idle w (q ++ xs) = ahead idle w q := by
  induction q with
  | nil => cases hw
  | cons i q ih =>
    by_cases hi : i = w
    · subst hi
      rw [List.cons_append, ahead_self, ahead_self]
    · have hq : w ∈ q := (List.mem_cons.1 hw).resolve_left fun e => hi e.symm
      rw [List.cons_append, ahead_cons hi, ahead_cons hi, ih hq]

/-- A choice takes one task from the front of everybody it passes over. -/
theorem ahead_pick (hn : q.Nodup) (hw : w ∈ q) (hidle : idle ≠ some w) (hne : (pick idle q).1 ≠ some w) :
    ahead idle w (pick idle q).2 + 1 = ahead idle w q := by
  rcases q with _ | ⟨i, _ | ⟨j, js⟩⟩
  · cases hw
  · obtain rfl := List.mem_singleton.1 hw
    exact absurd rfl hne
  have hij : i ≠ j := by
    rintro rfl
    exact (List.nodup_cons.1 hn).1 List.mem_cons_self
  rw [pick_cons] at hne ⊢
  by_cases hi : idle = some i
  · -- the idle task is first, and the second one is chosen
    rw [if_pos hi] at hne ⊢
    have hiw : i ≠ w := by
      rintro rfl
      exact hidle hi
    have hjw : j ≠ w := fun e => hne (congrArg some e)
    have hj : idle ≠ some j := by
      rw [hi]
      exact fun e => hij (Option.some.inj e)
    have hjs : w ∈ js := by
      rcases List.mem_cons.1 hw with e | hw
      · exact absurd e.symm hiw
      · exact (List.mem_cons.1 hw).resolve_left fun e => hjw e.symm
    rw [ahead_cons hiw, ahead_cons hjw, if_pos hi, if_neg hj, ahead_append hjs]
    omega
  · rw [if_neg hi] at hne ⊢
    have hiw : i ≠ w := fun e => hne (congrArg some e)
    rw [ahead_cons hiw, if_neg hi, Nat.add_comm]

/-- Only the end of a turn takes the processor away. -/
theorem Step.cur_eq (h : Step idle xs false s t) : t.cur = s.cur := by
  cases h
  rfl

/-- While a task waits, a step ends a turn or brings it no further. -/
theorem Step.waits (h : Step idle xs b s t) (hw : w ∈ s.queue) (hidle : idle ≠ some w) (hcur : t.cur ≠ some w) :
    w ∈ t.queue ∧ b.toNat + ahead idle w t.queue = ahead idle w s.queue := by
  cases h with
  | join s hn => exact ⟨List.mem_append_left _ hw, by rw [ahead_append hw]; exact Nat.zero_add _⟩
  | turn s hn =>
    have hw' := List.mem_append_left xs hw
    refine ⟨mem_pick hw' hcur, ?_⟩
    rw [← ahead_append hw xs, ← ahead_pick hn hw' hidle hcur]
    exact Nat.add_comm ..

/-- A task that waits has one task less in front of it after every turn. -/
theorem Path.waits (h : Path idle w s n t) (hw : w ∈ s.queue) (hidle : idle ≠ some w) (hcur : t.cur ≠ some w) :
    w ∈ t.queue ∧ n + ahead idle w t.queue = ahead idle w s.queue := by
  induction h with
  | start => exact ⟨hw, Nat.zero_add _⟩
  | next _ hnot hstep ih =>
    obtain ⟨hmem, hn⟩ := ih hnot
    obtain ⟨hmem', hb⟩ := hstep.waits hmem hidle hcur
    exact ⟨hmem', by omega⟩

/-- In front of a task there are at most the others, less the idle task. -/
theorem ahead_le [Fintype ι] (hn : q.Nodup) (hidle : idle = some i) (hw : i ≠ w) :
    ahead idle w q + 2 ≤ Fintype.card ι := by
  set ys := (q.takeWhile fun i => i ≠ w).filter fun i => idle ≠ some i with hys
  have hwx : w ∉ ys := by
    intro hm
    have h := List.mem_takeWhile_imp (List.mem_of_mem_filter hm)
    simp at h
  have hix : i ∉ ys := by
    intro hm
    have h := List.of_mem_filter hm
    simp [hidle] at h
  have hnx : (i :: w :: ys).Nodup := by
    refine List.nodup_cons.2 ⟨?_, List.nodup_cons.2 ⟨hwx, (hn.sublist (List.takeWhile_sublist _)).filter _⟩⟩
    intro hm
    rcases List.mem_cons.1 hm with e | hm
    · exact hw e
    · exact hix hm
  exact hnx.length_le_card

/-! ## The idle task -/

/-- The idle task waits, or it has the processor. -/
def Idles (i : ι) (s : Sched ι) : Prop := i ∈ s.queue ∨ s.cur = some i

/-- An idle task that joins the queue whenever its turn ends is there for good,
and at the end of a turn there is always a task to choose. -/
theorem Step.idles (h : Step idle xs b s t) (hi : Idles i s) (hback : b = true → s.cur = some i → i ∈ xs) :
    Idles i t ∧ (b = true → t.cur.isSome) := by
  cases h with
  | join s hn =>
    refine ⟨?_, by simp⟩
    rcases hi with hi | hi
    · exact .inl (List.mem_append_left _ hi)
    · exact .inr hi
  | turn s hn =>
    have hmem : i ∈ s.queue ++ xs := by
      rcases hi with hi | hi
      · exact List.mem_append_left _ hi
      · exact List.mem_append_right _ (hback rfl hi)
    refine ⟨?_, fun _ => pick_isSome (List.ne_nil_of_mem hmem)⟩
    by_cases hcur : (pick idle (s.queue ++ xs)).1 = some i
    · exact .inr hcur
    · exact .inl (mem_pick hmem hcur)

end RunQueue
