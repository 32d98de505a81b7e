import Xeros.Lib.Runs
/-!
# Two runs in lockstep

Two partial functions agree up to a relation when both fail or both give
related results (`Option.Rel`). A machine whose steps agree up to `R` from
related states makes the same runs from them (`Trail.lockstep`).
-/

namespace Runs

/-! ## Partial functions -/

section
variable {α β γ δ : Type}

theorem rel_refl {R : α → α → Prop} (h : ∀ a, R a a) (x : Option α) : Option.Rel R x x := by
  cases x with
  | none => exact .none
  | some a => exact .some (h a)

theorem rel_bind {R : α → β → Prop} {S : γ → δ → Prop} {x : Option α} {y : Option β} {f : α → Option γ}
    {g : β → Option δ} (h : Option.Rel R x y) (hfg : ∀ a b, R a b → Option.Rel S (f a) (g b)) :
    Option.Rel S (x.bind f) (y.bind g) := by
  cases h with
  | none => exact .none
  | some hab => exact hfg _ _ hab

/-- A step that both sides share. -/
theorem rel_bind_same {S : γ → δ → Prop} {x : Option α} {f : α → Option γ} {g : α → Option δ}
    (hfg : ∀ a, x = some a → Option.Rel S (f a) (g a)) : Option.Rel S (x.bind f) (x.bind g) := by
  cases x with
  | none => exact .none
  | some a => exact hfg a rfl

theorem rel_ite {R : α → β → Prop} {c c' : Prop} [Decidable c] [Decidable c'] {x x' : Option α} {y y' : Option β}
    (hc : c ↔ c') (hyes : c → Option.Rel R x y) (hno : ¬c → Option.Rel R x' y') :
    Option.Rel R (if c then x else x') (if c' then y else y') := by
  by_cases h : c
  · rw [if_pos h, if_pos (hc.1 h)]
    exact hyes h
  · rw [if_neg h, if_neg (mt hc.2 h)]
    exact hno h

theorem rel_mono {R S : α → β → Prop} {x : Option α} {y : Option β} (h : Option.Rel R x y)
    (hRS : ∀ a b, x = some a → R a b → S a b) : Option.Rel S x y := by
  cases h with
  | none => exact .none
  | some hab => exact .some (hRS _ _ rfl hab)

end

/-! ## Runs -/

variable {σ ε : Type}

/-- A run with the events `es`, all of them allowed. -/
inductive Trail (step : ε → σ → Option σ) (ok : σ → ε → Prop) : σ → List ε → σ → Prop
  | nil {s} : Trail step ok s [] s
  | cons {s e s1 es s'} : ok s e → step e s = some s1 → Trail step ok s1 es s' → Trail step ok s (e :: es) s'

variable {step : ε → σ → Option σ} {ok ok' : σ → ε → Prop}

/-- A computed run. -/
theorem Trail.of_exec {test : σ → ε → Bool} (ht : ∀ s e, test s e = true → ok s e) {s s' : σ} {es : List ε}
    (he : exec step test es s = some s') : Trail step ok s es s' := by
  induction es generalizing s with
  | nil =>
    cases he
    exact .nil
  | cons e es ih =>
    unfold Runs.exec at he
    split at he
    · next hte =>
      obtain ⟨s1, h1, h2⟩ := Option.bind_eq_some_iff.1 he
      exact .cons (ht s e hte) h1 (ih h2)
    · cases he

/-- From related states the same events lead to related states. -/
theorem Trail.lockstep {R : σ → σ → Prop} {s s' t : σ} {es : List ε}
    (hstep : ∀ s t e, R s t → ok s e → ok' t e ∧ Option.Rel R (step e s) (step e t))
    (h : Trail step ok s es s') (hR : R s t) : ∃ t', Trail step ok' t es t' ∧ R s' t' := by
  induction h generalizing t with
  | nil => exact ⟨t, .nil, hR⟩
  | @cons s e s1 es s' hok hs _ ih =>
    obtain ⟨hok', hrel⟩ := hstep s t e hR hok
    rw [hs] at hrel
    cases ht : step e t with
    | none =>
      rw [ht] at hrel
      cases hrel
    | some t1 =>
      rw [ht] at hrel
      cases hrel with
      | some hR1 =>
        obtain ⟨t', htrail, hR'⟩ := ih hR1
        exact ⟨t', .cons hok' ht htrail, hR'⟩

end Runs
