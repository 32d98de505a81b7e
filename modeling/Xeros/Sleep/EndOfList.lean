import Xeros.Sleep.Runs
/-!
# The end of the list of sleepers

The loop of `tick` reads the delta of the first sleeper without asking whether
there is one. So a tick goes right as long as it leaves somebody asleep, and
reads through a null pointer when the last sleepers wake (`tick_null_safe_iff`).
-/

namespace Xeros

open Links Kernel Deltas Runs

variable {k k' : Kernel} {c : Clock} {f : Queue → List Idx} {D : List (Idx × Nat)}

/-- `tick` returns, and nothing depends on what a read through `NULL` finds. -/
def NullSafe (k : Kernel) : Prop := ∃ k', ∀ nullDelta, tick nullDelta k = some k'

/-! ## A 0 behind the null pointer -/

/-- With a 0 there, the loop ends at a sleeper, and it does the same whatever else is there. -/
theorem tick_loop_zero {n : Nat} (h : tick_loop 0 n k = some k') (nullDelta : Word) :
    tick_loop nullDelta n k = some k' ∧ k'.sleep_list ≠ none := by
  induction n generalizing k with
  | zero => cases h
  | succ n ih =>
    unfold tick_loop at h ⊢
    split at h
    · rw [if_pos rfl] at h
      cases h
    · next p hp =>
      split at h
      · next hd =>
        obtain ⟨k1, hr, h⟩ := Option.bind_eq_some_iff.1 h
        obtain ⟨h', hsome⟩ := ih h
        refine ⟨?_, hsome⟩
        rw [if_pos hd]
        exact Option.bind_eq_some_iff.2 ⟨k1, hr, h'⟩
      · next hd =>
        cases h
        rw [if_neg hd]
        refine ⟨rfl, ?_⟩
        rw [hp]
        simp

theorem tick_zero (h : tick 0 k = some k') (nullDelta : Word) : tick nullDelta k = some k' := by
  unfold tick at h ⊢
  split at h
  · exact h
  · exact (tick_loop_zero h nullDelta).1

theorem nullSafe_iff : NullSafe k ↔ ∃ k', tick 0 k = some k' :=
  ⟨fun ⟨k', h⟩ => ⟨k', h 0⟩, fun ⟨k', h⟩ => ⟨k', tick_zero h⟩⟩

/-- A step that succeeds with a 0 behind the null pointer succeeds with anything there. -/
theorem sleepStep_zero {e : SleepEvent} {s s' : SleepSys} (h : sleepStep 0 e s = some s') (nullDelta : Word) :
    sleepStep nullDelta e s = some s' := by
  cases e with
  | tick =>
    obtain ⟨k', ht, h⟩ := Option.bind_eq_some_iff.1 h
    rw [sleepStep, tick_zero ht]
    exact h
  | sleep p ms => exact h
  | run => exact h
  | yield p => exact h

/-! ## Who is left -/

namespace SleepInv

/-- The deltas add up to more than one tick exactly when somebody is due later than the next. -/
theorem sum_iff {xs ys : List (Idx × Nat)} (h : SleepInv k c f D) (hD : D = xs ++ ys)
    (hx : ∀ e ∈ xs, e.2 = c.now + 1) (hy : ∀ e ∈ ys, c.now + 1 < e.2) :
    1 < ((f .sleepers).map (ticks k.delta)).sum ↔ ys ≠ [] := by
  have hsum := Counts.sum h.counts
  have hmap : (f .sleepers).map (ticks k.delta) = D.map fun e => ticks k.delta e.1 := by
    rw [h.sleepers, List.map_map]
    rfl
  rw [hmap]
  constructor
  · rintro hlt rfl
    have hne : D ≠ [] := by
      rintro rfl
      simp at hlt
    obtain ⟨e, he, hlast⟩ := last_mem c.now hne
    have hdue := hx e (by rwa [hD, List.append_nil] at he)
    omega
  · intro hne
    obtain ⟨e, he⟩ := List.exists_mem_of_ne_nil ys hne
    have hle := Counts.le_last h.counts e (by rw [hD]; exact List.mem_append_right _ he)
    have hlate := hy e he
    omega

/-- A tick is safe as long as nobody sleeps or somebody is left. -/
theorem nullSafe_iff (h : SleepInv k c f D) :
    NullSafe k ↔ f .sleepers = [] ∨ 1 < ((f .sleepers).map (ticks k.delta)).sum := by
  obtain ⟨xs, ys, hD, hx, hy, hret⟩ := h.tick_due
  have hnil : f .sleepers = [] ↔ D = [] := by rw [h.sleepers, List.map_eq_nil_iff]
  rw [Xeros.nullSafe_iff, h.sum_iff hD hx hy, hnil]
  constructor
  · rintro ⟨k', ht⟩
    by_contra hno
    obtain ⟨hne, hys⟩ := not_or.1 hno
    rw [not_not] at hys
    -- the loop wakes everybody, so it cannot have ended at a sleeper
    obtain ⟨k1, ht1, -, hlists, -⟩ := hret 1 fun _ _ => by decide
    cases Option.some.inj (ht1.symm.trans (tick_zero ht 1))
    have hend : k'.sleep_list = none := by
      have hc := hlists.chain .sleepers
      rwa [wake_self (by decide), hys] at hc
    unfold Xeros.tick at ht
    split at ht
    · next hs =>
      have hc := h.lists.chain .sleepers
      rw [h.sleepers] at hc
      cases D with
      | nil => exact hne rfl
      | cons e D =>
        have hs' : k.sleep_list = some e.1 := hc.1
        rw [hs] at hs'
        cases hs'
    · exact (tick_loop_zero ht 1).2 hend
  · intro hor
    obtain ⟨k', ht, -⟩ := hret 0 fun hne hys => absurd hys (hor.resolve_left hne)
    exact ⟨k', ht⟩

end SleepInv

/-- The kernel keeps step with the clock whatever is behind the null pointer. -/
theorem sleepInv_reach {nullDelta : Word} {s : SleepSys} (hs : Reach (sleepStep nullDelta) SleepInit Any s) :
    ∃ f D, SleepInv s.kernel s.clock f D := by
  refine hs.inv (fun s => ∃ f D, SleepInv s.kernel s.clock f D) (fun s h => SleepInv.start h) ?_
  rintro s e s' ⟨f, D, h⟩ _ ht
  by_cases hnd : nullDelta = 0
  · subst hnd
    exact h.step (by decide) (sleepStep_zero ht 1)
  · exact h.step hnd ht

/-! ## Result -/

/-- For every list that `sleep` and `tick` can build, the next `tick` returns and reads nothing through `NULL`
exactly when nobody sleeps or the deltas add up to more than one: when somebody stays asleep. -/
theorem tick_null_safe_iff {nullDelta : Word} {s : SleepSys} (hs : Reach (sleepStep nullDelta) SleepInit Any s) :
    NullSafe s.kernel ↔ ∃ is, Chain s.kernel.links (.head .sleepers) is ∧
      (is = [] ∨ 1 < (is.map (ticks s.kernel.delta)).sum) := by
  obtain ⟨f, D, h⟩ := sleepInv_reach hs
  rw [h.nullSafe_iff]
  refine ⟨fun hor => ⟨_, h.lists.chain .sleepers, hor⟩, ?_⟩
  rintro ⟨is, hc, hor⟩
  rwa [hc.unique (h.lists.chain .sleepers)] at hor

/-- Somebody stays asleep. -/
theorem tick_null_safe_2_sleepers : ∃ s, Reach (sleepStep 1) SleepInit Any s ∧ s.kernel.sleep_list = some 0 ∧
    NullSafe s.kernel := by
  have h0 : Reach (sleepStep 1) SleepInit Any threeRunning := .start threeRunning_init
  obtain ⟨s, hs, ht⟩ := h0.exec_any [.sleep 0 10, .sleep 1 20]
    (fun s => decide (s.kernel.sleep_list = some 0 ∧ s.kernel.next 0 = some 1 ∧ s.kernel.next 1 = none ∧
      s.kernel.delta 0 = 1 ∧ s.kernel.delta 1 = 1)) (by decide +kernel)
  obtain ⟨hl, h01, h1, hd0, hd1⟩ := of_decide_eq_true ht
  refine ⟨s, hs, hl, (tick_null_safe_iff hs).2 ⟨[0, 1], ⟨hl, h01, h1⟩, .inr ?_⟩⟩
  simp only [List.map_cons, List.map_nil, ticks, hd0, hd1]
  decide

/-- The only sleeper wakes, and `tick` reads `NULL->delta`. -/
theorem tick_reads_null : ¬∀ (nullDelta : Word) (s : SleepSys), Reach (sleepStep nullDelta) SleepInit Any s →
    NullSafe s.kernel := by
  intro hall
  have h0 : Reach (sleepStep 1) SleepInit Any threeRunning := .start threeRunning_init
  obtain ⟨s, hs, ht⟩ := h0.exec_any [.sleep 0 10] (fun s => (tick 0 s.kernel).isNone) (by decide +kernel)
  obtain ⟨k', hk'⟩ := hall 1 s hs
  rw [hk' 0] at ht
  cases ht

end Xeros
