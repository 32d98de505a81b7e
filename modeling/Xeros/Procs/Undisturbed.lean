import Xeros.Procs.Running
import Xeros.Procs.Cleanup
import Xeros.Signal.Nesting
/-!
# A process that does not run is left alone

While a process waits for its turn, ready or blocked, the kernel serves the
others. It may wake the process, give it a return value or record a signal for
it. It does not end it, and it changes nothing else of its PCB: the process
comes back under its pid, with its stack and stack pointer, its handlers and its
descriptors (`undisturbed`).
-/

namespace Xeros

open Kernel Runs

variable {im : Image} {k k1 k' : Kernel} {s s' t : Sys} {p q i : Idx} {e : Event}

/-- The part of a PCB that only the process itself changes. -/
structure OwnPcb where
  pid : Word
  parentPid : Word
  esp : Word
  stack : Word
  iargs : Word
  sig_handler : Fin NUM_SIGNAL → Word
  allowed_sig : Word
  hi_sig : Word
  opened_dv : Fin NUM_FD → Option Device

def ownPcb (k : Kernel) (i : Idx) : OwnPcb :=
  { pid := k.pid i, parentPid := k.parentPid i, esp := k.esp i, stack := k.stack i, iargs := k.iargs i
    sig_handler := k.sig_handler i, allowed_sig := k.allowed_sig i, hi_sig := k.hi_sig i, opened_dv := k.opened_dv i }

/-- `i` keeps its part of the PCB and loses no signal. -/
structure LeavesAlone (i : Idx) (k k' : Kernel) : Prop where
  own : ownPcb k' i = ownPcb k i
  pending : ∀ sig, Has (k.pending_sig i) sig → Has (k'.pending_sig i) sig

namespace LeavesAlone

theorem of_eq (h : ownPcb k' i = ownPcb k i) (hpend : k'.pending_sig i = k.pending_sig i) : LeavesAlone i k k' := by
  refine ⟨h, ?_⟩
  rw [hpend]
  exact fun _ => id

theorem trans (h : LeavesAlone i k k1) (h' : LeavesAlone i k1 k') : LeavesAlone i k k' :=
  ⟨h'.own.trans h.own, fun sig hs => h'.pending sig (h.pending sig hs)⟩

theorem of_moves (h : Moves k k') : LeavesAlone i k k' := by
  apply of_eq
  · rw [h]
    rfl
  · rw [h]

theorem signal {pid sig_no : Word} {rc : Int} (h : Xeros.signal k pid sig_no = some (k', rc)) : LeavesAlone i k k' := by
  refine ⟨?_, (KeepsSignals.signal h).pending⟩
  rcases signal_cases h with rfl | ⟨q, -, rfl | ⟨-, k2, v, hr, rfl⟩⟩
  · rfl
  · rfl
  · exact (of_moves (.ready hr)).own

theorem create_new {pid ptr esp : Word} (hiq : i ≠ q) (hk1 : k1 = reset_pcb { k with
      toHeap := k1.toHeap
      nextPid := pid + 1
      pid := Function.update k.pid q pid
      parentPid := Function.update k.parentPid q (k.pid p)
      stack := Function.update k.stack q ptr
      esp := Function.update k.esp q esp
      pidMap := k1.pidMap } q) : LeavesAlone i k k1 := by
  rw [hk1]
  apply of_eq
  · simp [ownPcb, reset_pcb, hiq]
  · simp [reset_pcb, hiq]

theorem cleanup (hi : i ≠ p) (h : Xeros.cleanup keyboards k p = some k') : LeavesAlone i k k' := by
  obtain ⟨k1, h1, h⟩ := Option.bind_eq_some_iff.1 h
  obtain ⟨k2, h2, h⟩ := Option.bind_eq_some_iff.1 h
  obtain ⟨hp, -, h⟩ := Option.bind_eq_some_iff.1 h
  obtain ⟨⟨tree, hp'⟩, -, h⟩ := Option.bind_eq_some_iff.1 h
  cases h
  refine trans (of_moves (.drain h1)) (trans (of_moves (.drain h2)) ?_)
  have hdv : (Xeros.close_all keyboards k2 p).opened_dv i = k2.opened_dv i := by
    rw [close_all_opened]
    exact Function.update_of_ne hi ..
  have hstack : (Xeros.close_all keyboards k2 p).stack = k2.stack := by rw [close_all_eq]
  apply of_eq
  · simp only [ownPcb, hdv, hstack, Function.update_of_ne hi]
    rw [close_all_eq]
  · simp only []
    rw [close_all_eq]

/-- A request of another process. -/
theorem effect {r : Request} (hi : i ≠ p) (huse : k.state i ≠ .STOPPED) (h : Effect im k k' p r) :
    LeavesAlone i k k' := by
  cases h with
  | moves hr hm => exact of_moves hm
  | refused h =>
    rw [h]
    exact of_eq rfl rfl
  | created q pid k1 k2 hfs hloop hins hk1 hr h =>
    have hiq : i ≠ q := by
      rintro rfl
      exact huse (firstStopped_spec hfs)
    obtain ⟨ptr, esp, hk1⟩ := hk1
    rw [h]
    exact trans (create_new hiq hk1) (trans (of_moves (.ready hr)) (of_eq rfl rfl))
  | stopped h => exact cleanup hi h
  | registered handlers allowed h =>
    rw [h]
    apply of_eq
    · simp [ownPcb, hi]
    · rfl
  | returned esp hi_sig irc h =>
    rw [h]
    apply of_eq
    · simp [ownPcb, hi]
    · rfl
  | posted k1 rc v hs h =>
    rw [h]
    exact trans (signal hs) (of_eq rfl rfl)
  | drives dvs hr h =>
    rw [h]
    apply of_eq
    · simp [ownPcb, hi]
    · rfl

theorem resume (hq : q ≠ i) : LeavesAlone i k (Xeros.resume im k q) := by
  have h : KeepsSignals i k (Xeros.resume im k q) := .resume hq
  refine ⟨?_, h.pending⟩
  simp only [ownPcb, h.esp, h.hi_sig]
  rw [resume_eq]

/-- A turn of another process after which `i` is not resumed. -/
theorem dispatch_request {r : Option Request} (hi : i ≠ p) (huse : k.state i ≠ .STOPPED)
    (hd : Xeros.dispatch_request im k p r = some s) (hcur : s.cur ≠ some i) : LeavesAlone i k s.kernel := by
  rcases dispatch_request_effect hd with ⟨-, rfl⟩ | ⟨k1, k2, heff, hm, -, -, hend⟩
  · exact of_eq rfl rfl
  have h1 : LeavesAlone i k k1 := by
    rcases heff with ⟨-, rfl⟩ | ⟨x, -, -, heff⟩
    · exact of_eq rfl rfl
    · exact effect hi huse heff
  have h2 := trans h1 (of_moves hm)
  rcases hend with rfl | ⟨q, rfl⟩
  · exact h2
  · refine trans h2 (resume ?_)
    rintro rfl
    exact hcur rfl

end LeavesAlone

/-! ## Who is stopped -/

/-- A process is ended by its own request and by nothing else. -/
theorem step_stopped (hi : s.cur ≠ some i) (huse : s.kernel.state i ≠ .STOPPED) (h : step im e s = some s') :
    s'.kernel.state i ≠ .STOPPED := by
  rcases step_cases h with ⟨g, rfl, rfl⟩ | ⟨codes, k, t, rfl, hl, rfl⟩ | ⟨k, p, r, htr, hd⟩
  · exact huse
  · rcases keyboard_lower_state hl i with e | e
    · exact fun hst => huse (e.symm.trans hst)
    · intro hst
      rw [e] at hst
      cases hst
  have hip : i ≠ p := by
    rintro rfl
    exact hi (trapped_cur htr)
  have hstate : k.state = s.kernel.state := (trapped_frame htr).2.1
  rw [← hstate] at huse
  intro hst
  unfold dispatch_request at hd
  split at hd
  · cases hd
    exact huse hst
  · obtain ⟨⟨k1, tr⟩, hh, hd⟩ := Option.bind_eq_some_iff.1 hd
    rcases NoNew.handle_request (.inr rfl) hh i (NoNew.dispatch_next (.inr rfl) hd i hst) with h' | ⟨h', -⟩
    · exact huse h'
    · exact hip h'
  · exact huse (NoNew.dispatch_next (.inr rfl) hd i hst)

theorem LeavesAlone.step (hi : s.cur ≠ some i) (huse : s.kernel.state i ≠ .STOPPED) (h : Xeros.step im e s = some s')
    (hcur : s'.cur ≠ some i) : LeavesAlone i s.kernel s'.kernel := by
  rcases step_cases h with ⟨g, rfl, rfl⟩ | ⟨codes, k, t, rfl, hl, rfl⟩ | ⟨k, p, r, htr, hd⟩
  · exact of_eq rfl rfl
  · rw [keyboard_lower_eq hl]
    exact of_eq rfl rfl
  have hip : i ≠ p := by
    rintro rfl
    exact hi (trapped_cur htr)
  have hstate : k.state = s.kernel.state := (trapped_frame htr).2.1
  have hturn := dispatch_request hip (by rwa [hstate]) hd hcur
  refine trans ?_ hturn
  have e := trapped_eq htr
  apply of_eq
  · rw [e]
    simp [ownPcb, hip]
  · rw [e]

/-! ## Result -/

/-- In every run in which process `i`, which is in use, is never the current
process, it stays in use and nothing but its place, its return value and its
pending signals changes. -/
theorem undisturbed (huse : s.kernel.state i ≠ .STOPPED) (ht : Reach (step im) (· = s) (fun t _ => t.cur ≠ some i) t)
    (hcur : t.cur ≠ some i) : t.kernel.state i ≠ .STOPPED ∧ LeavesAlone i s.kernel t.kernel := by
  -- the state before the last step was not one of `i` either
  have h : t.kernel.state i ≠ .STOPPED ∧ (t.cur ≠ some i → LeavesAlone i s.kernel t.kernel) := by
    induction ht with
    | start hs =>
      subst hs
      exact ⟨huse, fun _ => .of_eq rfl rfl⟩
    | next _ hok hstep ih =>
      obtain ⟨huse1, hleft⟩ := ih hok
      exact ⟨step_stopped hok huse1 hstep, fun hcur' => (hleft hok).trans (.step hok huse1 hstep hcur')⟩
  exact ⟨h.1, h.2 hcur⟩

/-- Process 1 waits, while process 0 opens the keyboard and lets others run. -/
theorem undisturbed_idle : ∃ t : Sys, t.kernel.opened_dv 0 0 = some 0 ∧
    t.kernel.state 1 ≠ .STOPPED ∧ LeavesAlone 1 sampleSys.kernel t.kernel := by
  have h0 : Reach (step sampleImage) (· = sampleSys) (fun t _ => t.cur ≠ some 1) sampleSys := .start rfl
  obtain ⟨t, hs, ht⟩ := h0.exec_ok (fun t _ => decide (t.cur ≠ some 1)) (fun _ _ => of_decide_eq_true)
    (call 0x10000 .OPEN [0] ++ call 0x10000 .YIELD [])
    (fun t => decide (t.cur ≠ some 1 ∧ t.kernel.opened_dv 0 0 = some 0)) (by decide +kernel)
  obtain ⟨hcur, hopen⟩ := of_decide_eq_true ht
  have huse : sampleSys.kernel.state 1 ≠ .STOPPED := by
    intro e
    have h : decide (sampleSys.kernel.state 1 = .STOPPED) = false := by decide +kernel
    rw [e] at h
    cases h
  exact ⟨t, hopen, undisturbed huse hs hcur⟩

end Xeros
