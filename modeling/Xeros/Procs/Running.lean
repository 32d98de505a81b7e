import Xeros.Procs.Effects
/-!
# One process runs

There is one processor: in every state of the machine exactly the current
process is in state `RUNNING`, and nobody is when the dispatcher has returned.
Two things could break this. A request number that is no request leaves its
caller `RUNNING` and selects another process; and a keyboard interrupt that
completes a read for a process that is not blocked on one makes it `READY`
while it runs.
-/

namespace Xeros

open Kernel Runs

variable {im : Image} {k k' : Kernel} {s s' : Sys} {p : Idx} {e : Event}

/-- Requests have numbers of requests, and no interrupt completes a read of a
process that is not blocked on one. -/
structure Regular (s : Sys) (e : Event) : Prop where
  request : ∀ k p, trapped s e ≠ some (k, p, none)
  interrupt : ∀ codes, e = .keyboard codes → InterruptOk s.kernel codes

/-- The processes that run are those that are current. -/
def OneRuns (s : Sys) : Prop := ∀ i, s.kernel.state i = .RUNNING ↔ s.cur = some i

/-- An interrupt wakes a reader, who did not run, or nobody. -/
theorem keyboard_lower_running {codes : List Byte} {t : List Touch} (hok : InterruptOk k codes)
    (h : keyboard_lower k codes = some (k', t)) (i : Idx) : k'.state i = .RUNNING ↔ k.state i = .RUNNING := by
  by_cases hend : k.kbd.ps.ch_read < k.kbd.ps.buf_len ∧ ReadEnds (keyboard_fill k.kbd codes)
  · rcases keyboard_lower_cases h with ⟨hge, -⟩ | ⟨-, q, k1, rc, t1, xs, ended, rest, hq, hc, hfin⟩
    · exact absurd hend.1 hge
    have hreading := hok hend.1 hend.2 q hq
    have hstate : k1.state = k.state := by
      rw [hc.frame]
      rfl
    rcases hfin with ⟨-, rfl, -⟩ | ⟨-, hr, -⟩
    · rw [hstate]
    · rw [ready_eq hr, hstate]
      by_cases hiq : i = q
      · subst hiq
        simp [hreading]
      · simp only [Function.update_of_ne hiq]
  · rw [keyboard_lower_idle h hend]

theorem OneRuns.dispatch {r : Option Request} (h : ∀ i, k.state i = .RUNNING ↔ some p = some i) (hr : r ≠ none)
    (hd : dispatch_request im k p r = some s) : OneRuns s := by
  rcases dispatch_request_effect hd with ⟨-, rfl⟩ | ⟨k1, k2, -, -, hsettles, hparked, hend⟩
  · exact h
  have hnone : ∀ i, k2.state i ≠ .RUNNING := by
    intro i hi
    obtain rfl : p = i := Option.some.inj ((h i).1 (hsettles i hi))
    exact hparked hr hi
  rcases hend with rfl | ⟨q, rfl⟩
  · intro i
    simp [hnone i]
  · intro i
    rw [resume_eq]
    by_cases hiq : i = q
    · simp [hiq]
    · have hqi : q ≠ i := Ne.symm hiq
      simp [hiq, hqi, hnone i]

theorem OneRuns.step (h : OneRuns s) (hok : Regular s e) (ht : Xeros.step im e s = some s') : OneRuns s' := by
  rcases step_cases ht with ⟨g, rfl, rfl⟩ | ⟨codes, k, t, rfl, hl, rfl⟩ | ⟨k, p, r, htr, hd⟩
  · exact h
  · intro i
    exact (keyboard_lower_running (hok.interrupt codes rfl) hl i).trans (h i)
  · refine OneRuns.dispatch ?_ (fun hr => hok.request k p (hr ▸ htr)) hd
    intro i
    rw [trapped_eq htr, ← trapped_cur htr]
    exact h i

theorem OneRuns.boot {m : Mem} {root idleproc : Word} (hb : Xeros.boot im m root idleproc = some s) : OneRuns s := by
  obtain ⟨pid1, k1, pid2, k2, idle, hc1, hc2, -, hend⟩ := boot_cases hb
  have hnone : ∀ i, (next { k2 with idle := some idle }).2.state i ≠ .RUNNING := by
    intro i hi
    have h2 : k2.state i = .RUNNING := Settles.next { k2 with idle := some idle } i hi
    have h0 := Settles.create hc1 i (Settles.create hc2 i h2)
    cases h0
  rcases hend with ⟨-, rfl⟩ | ⟨q, -, rfl⟩
  · intro i
    simp [hnone i]
  · intro i
    rw [resume_eq]
    by_cases hiq : i = q
    · simp [hiq]
    · have hqi : q ≠ i := Ne.symm hiq
      simp [hiq, hqi, hnone i]

/-- In every run of the machine exactly the current process is running. -/
theorem one_runs (hs : Reach (step im) (Booted im) Regular s) : OneRuns s := by
  refine hs.inv OneRuns ?_ fun _ _ _ h hok ht => h.step hok ht
  rintro s ⟨m, root, idleproc, hb⟩
  exact .boot hb

/-- A request that exists, the clock, or a change of memory. -/
def regularEvent (s : Sys) (e : Event) : Bool :=
  match trapped s e, e with
  | some (_, _, r), _ => r.isSome
  | none, .keyboard _ => false
  | none, _ => true

theorem regularEvent_ok {s : Sys} {e : Event} (h : regularEvent s e = true) : Regular s e := by
  constructor
  · intro k p htr
    unfold regularEvent at h
    rw [htr] at h
    cases h
  · rintro codes rfl
    cases h

/-- Process 0 sleeps while process 1 runs, and the clock wakes it. -/
theorem one_runs_woken : ∃ s, Reach (step sampleImage) (Booted sampleImage) Regular s ∧
    (s.cur = some 0 ∧ s.kernel.state 1 = .READY) ∧ OneRuns s := by
  have h0 : Reach (step sampleImage) (Booted sampleImage) Regular sampleSys := .start sampleSys_booted
  obtain ⟨s, hs, ht⟩ := h0.exec_ok regularEvent (fun _ _ => regularEvent_ok)
    (call 0x10000 .SLEEP [5] ++ [.timer 0x11000 0])
    (fun s => decide (s.cur = some 0 ∧ s.kernel.state 1 = .READY)) (by decide +kernel)
  exact ⟨s, hs, of_decide_eq_true ht, one_runs hs⟩

end Xeros
