import Xeros.Signal.Delivery
import Xeros.Procs.Moves
import Xeros.Kbd.Devices
/-!
# Requests leave the signal state alone

What a process's own requests do to its stack pointer and to its signal sets:
nothing, but for `KILL`, which may add a pending signal, and for `SIGRETURN`.
-/

namespace Xeros

/-- The stack pointer and `hi_sig` of `p` are the same, and no pending signal is lost. -/
structure KeepsSignals (p : Idx) (k k' : Kernel) : Prop where
  esp : k'.esp p = k.esp p
  hi_sig : k'.hi_sig p = k.hi_sig p
  pending : ∀ i, Has (k.pending_sig p) i → Has (k'.pending_sig p) i

namespace KeepsSignals
variable {p q : Idx} {k k1 k' : Kernel}

theorem of_eq (h1 : k'.esp p = k.esp p) (h2 : k'.hi_sig p = k.hi_sig p) (h3 : k'.pending_sig p = k.pending_sig p) :
    KeepsSignals p k k' := by
  refine ⟨h1, h2, fun i hi => ?_⟩
  rwa [h3]

theorem trans (h : KeepsSignals p k k1) (h' : KeepsSignals p k1 k') : KeepsSignals p k k' :=
  ⟨h'.esp.trans h.esp, h'.hi_sig.trans h.hi_sig, fun i hi => h'.pending i (h.pending i hi)⟩

theorem of_moves (h : Moves k k') : KeepsSignals p k k' := by
  apply of_eq
  · rw [h]
  · rw [h]
  · rw [h]

theorem of_drives (h : Drives k k') : KeepsSignals p k k' := by
  apply of_eq
  · rw [h]
  · rw [h]
  · rw [h]

theorem signal {pid sig_no : Word} {rc : Int} (h : Xeros.signal k pid sig_no = some (k', rc)) : KeepsSignals p k k' := by
  rcases signal_cases h with rfl | ⟨q, -, hend⟩
  · exact of_eq rfl rfl rfl
  have h1 : KeepsSignals p k (signalled k q sig_no) := by
    refine ⟨rfl, rfl, fun i hi => ?_⟩
    by_cases hpq : p = q
    · subst hpq
      simp only [signalled, Function.update_self]
      rw [Has, BitVec.getLsbD_or, hi]
      rfl
    · simp only [signalled, Function.update_of_ne hpq]
      exact hi
  rcases hend with rfl | ⟨-, k2, v, hr, rfl⟩
  · exact h1
  · exact trans h1 (trans (of_moves (Moves.ready hr)) (of_eq rfl rfl rfl))

/-- The new process is not `p`, which is in use. -/
theorem create {im : Image} {func stack parent r : Word} (hp : k.state p ≠ .STOPPED)
    (h : Xeros.create im k func stack parent = some (r, k')) : KeepsSignals p k k' := by
  rcases create_cases h with ⟨-, e⟩ | ⟨q, k1, hfs, -, -, ⟨ptr, esp, hk1⟩, hr⟩
  · rw [e]
    exact of_eq rfl rfl rfl
  have hpq : p ≠ q := by
    rintro rfl
    exact hp (firstStopped_spec hfs)
  refine trans ?_ (of_moves (Moves.ready hr))
  rw [hk1]
  apply of_eq
  · exact Function.update_of_ne hpq ..
  · exact Function.update_of_ne hpq ..
  · exact Function.update_of_ne hpq ..

theorem cleanup (h : Xeros.cleanup keyboards k q = some k') : KeepsSignals p k k' := by
  obtain ⟨k1, k2, k3, h1, h2, h3, h⟩ := cleanup_cases h
  obtain ⟨⟨t, hp⟩, -, h⟩ := Option.bind_eq_some_iff.1 h
  cases h
  refine trans (of_moves (Moves.drain h1)) (trans (of_moves (Moves.drain h2)) ?_)
  rw [close_all_eq] at h3
  apply of_eq
  · simp only []
    rw [h3]
  · simp only []
    rw [h3]
  · simp only []
    rw [h3]

theorem register_sig_handler (im : Image) (k : Kernel) (q : Idx) (sig new old : Word) :
    KeepsSignals p k (Xeros.register_sig_handler im k q sig new old) := by
  rw [register_sig_handler_eq]
  exact of_eq rfl rfl rfl

/-- Every request but `SIGRETURN` keeps the signal state of a process in use, whoever makes it. -/
theorem handle_request {im : Image} {r : Request} {tr : Option Idx} (hp : k.state p ≠ .STOPPED) (hr : r ≠ .SIGRETURN)
    (h : Xeros.handle_request im k q r = some (k', tr)) : KeepsSignals p k k' := by
  have hmoves {k1 : Kernel} {tr' : Option Idx} (hm : Moves k k1) (h : some (k1, tr') = some (k', tr)) :
      KeepsSignals p k k' := by
    cases h
    exact of_moves hm
  have hdrives {k1 : Kernel} {tr' : Option Idx} (hd : Drives k k1) (h : some (k1, tr') = some (k', tr)) :
      KeepsSignals p k k' := by
    cases h
    exact of_drives hd
  cases r with
  | TIME_INT =>
    cases h
    exact of_eq rfl rfl rfl
  | CREATE =>
    obtain ⟨⟨r, k1⟩, hc, h⟩ := Option.bind_eq_some_iff.1 h
    cases h
    exact trans (create hp hc) (of_eq rfl rfl rfl)
  | YIELD =>
    cases h
    exact of_eq rfl rfl rfl
  | STOP =>
    obtain ⟨k1, hc, h⟩ := Option.bind_eq_some_iff.1 h
    cases h
    exact cleanup hc
  | GET_PID =>
    cases h
    exact of_eq rfl rfl rfl
  | GET_P_PID =>
    cases h
    exact of_eq rfl rfl rfl
  | PUTS =>
    cases h
    exact of_eq rfl rfl rfl
  | SEND =>
    obtain ⟨k1, hc, h⟩ := Option.bind_eq_some_iff.1 h
    exact hmoves (Moves.send hc) h
  | RECV =>
    obtain ⟨k1, hc, h⟩ := Option.bind_eq_some_iff.1 h
    exact hmoves (Moves.receive hc) h
  | SYS_TIMER =>
    obtain ⟨k1, hc, h⟩ := Option.bind_eq_some_iff.1 h
    exact hmoves (Moves.tick hc) h
  | SLEEP =>
    obtain ⟨k1, hc, h⟩ := Option.bind_eq_some_iff.1 h
    exact hmoves (Moves.sleep hc) h
  | SIGHANDLER =>
    cases h
    exact register_sig_handler ..
  | SIGRETURN => exact absurd rfl hr
  | KILL =>
    obtain ⟨⟨k1, rc⟩, hc, h⟩ := Option.bind_eq_some_iff.1 h
    cases h
    exact trans (signal hc) (of_eq rfl rfl rfl)
  | SIGWAIT =>
    cases h
    exact of_eq rfl rfl rfl
  | OPEN => exact hdrives (di_open_drives k q _) h
  | CLOSE => exact hdrives (di_close_drives k q _) h
  | WRITE =>
    obtain ⟨⟨rc, k1⟩, hw, h⟩ := Option.bind_eq_some_iff.1 h
    obtain ⟨rfl, hd⟩ := di_write_drives hw
    exact hdrives hd h
  | READ =>
    obtain ⟨⟨rc, k1⟩, hr, h⟩ := Option.bind_eq_some_iff.1 h
    have e := (di_read_cases hr).1
    have h1 : KeepsSignals p k k1 := by
      apply of_eq
      · rw [e]
      · rw [e]
      · rw [e]
    simp only [] at h
    split at h
    · cases h
      exact trans h1 (of_eq rfl rfl rfl)
    · cases h
      exact h1
  | IO_CTL => exact hdrives (di_ioctl_drives k q _ _ _) h

end KeepsSignals

end Xeros
