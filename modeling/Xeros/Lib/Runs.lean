import Mathlib.Tactic.Common
/-!
# Runs of a machine

A machine is a partial step function on states: `step e s` is the state after
event `e`, or `none` when `e` cannot happen or the machine faults. `Reach` is
the set of states reached from the initial ones by events that all satisfy a
guard `ok`, so "in every run whose steps meet a condition" is a statement about
`Reach`. `exec` computes one run, for witnesses.
-/

namespace Runs

variable {σ ε : Type}

/-- States reached from `init` by steps that meet `ok`. -/
inductive Reach (step : ε → σ → Option σ) (init : σ → Prop) (ok : σ → ε → Prop) : σ → Prop
  | start {s} : init s → Reach step init ok s
  | next {s e s'} : Reach step init ok s → ok s e → step e s = some s' → Reach step init ok s'

/-- Every step is allowed. -/
abbrev Any : σ → ε → Prop := fun _ _ => True

variable {step : ε → σ → Option σ} {init : σ → Prop} {ok : σ → ε → Prop}

/-- An invariant of the initial states, kept by every allowed step, holds in
every reached state. -/
theorem Reach.inv (I : σ → Prop) (h0 : ∀ s, init s → I s)
    (hs : ∀ s e s', I s → ok s e → step e s = some s' → I s') {s : σ} (h : Reach step init ok s) : I s := by
  induction h with
  | start hi => exact h0 _ hi
  | next _ ho ht ih => exact hs _ _ _ ih ho ht

/-- Weaker guards reach more. -/
theorem Reach.mono {ok' : σ → ε → Prop} (hok : ∀ s e, ok s e → ok' s e) {s : σ} (h : Reach step init ok s) :
    Reach step init ok' s := by
  induction h with
  | start hi => exact .start hi
  | next _ ho ht ih => exact .next ih (hok _ _ ho) ht

/-- The state after a list of events that all pass a test. -/
def exec (step : ε → σ → Option σ) (test : σ → ε → Bool) : List ε → σ → Option σ
  | [], s => some s
  | e :: es, s => if test s e then (step e s).bind (exec step test es) else none

/-- A computed run reaches its last state. -/
theorem Reach.exec {test : σ → ε → Bool} (ht : ∀ s e, test s e = true → ok s e) {s s' : σ} {es : List ε}
    (h : Reach step init ok s) (he : exec step test es s = some s') : Reach step init ok s' := by
  induction es generalizing s with
  | nil => simp only [Runs.exec, Option.some.injEq] at he; exact he ▸ h
  | cons e es ih =>
    unfold Runs.exec at he
    split at he
    · next hte =>
      obtain ⟨s1, h1, h2⟩ := Option.bind_eq_some_iff.1 he
      exact ih (.next h (ht s e hte) h1) h2
    · cases he

/-- A run whose steps and whose last state pass computed tests. -/
theorem Reach.exec_ok {s : σ} (h : Reach step init ok s) (test : σ → ε → Bool) (ht : ∀ s e, test s e = true → ok s e)
    (es : List ε) (p : σ → Bool) (he : (Runs.exec step test es s).any p = true) :
    ∃ s', Reach step init ok s' ∧ p s' = true := by
  cases hx : Runs.exec step test es s with
  | none => simp [hx] at he
  | some s' => exact ⟨s', h.exec ht hx, by simpa [hx] using he⟩

/-- A run that passes a computed test at its end. -/
theorem Reach.exec_any {s : σ} (h : Reach step init Any s) (es : List ε) (p : σ → Bool)
    (he : (Runs.exec step (fun _ _ => true) es s).any p = true) : ∃ s', Reach step init Any s' ∧ p s' = true :=
  h.exec_ok _ (fun _ _ _ => trivial) es p he

end Runs
