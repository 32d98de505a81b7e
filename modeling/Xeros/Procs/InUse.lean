import Xeros.Procs.Effects
/-!
# Who is in use

Only `create` takes a PCB into use and only the process itself gives it back:
as long as `ready` is called on nobody who has stopped, every other request
keeps the set of processes in use, their stacks and the nodes of the pid map
(`handle_request_keeps`).
-/

namespace Xeros

open Links Kernel

variable {im : Image} {k k1 k' : Kernel} {partner : Idx → Word} {f : Queue → List Idx} {p q : Idx} {s : Sys}

/-! ## Processes -/

/-- The same processes are in use. -/
def SameInUse (k k' : Kernel) : Prop := ∀ i, k'.state i = .STOPPED ↔ k.state i = .STOPPED

namespace SameInUse

theorem of_eq (h : k'.state = k.state) : SameInUse k k' := by
  intro i
  rw [h]

theorem trans (h : SameInUse k k1) (h' : SameInUse k1 k') : SameInUse k k' := fun i => (h' i).trans (h i)

/-- A process in use changes its state. -/
theorem of_update {st : PState} (hp : k.state p ≠ .STOPPED) (hst : st ≠ .STOPPED)
    (h : k'.state = Function.update k.state p st) : SameInUse k k' := by
  intro i
  rw [h]
  by_cases hip : i = p
  · subst hip
    rw [Function.update_self]
    exact iff_of_false hst hp
  · rw [Function.update_of_ne hip]

theorem of_setAll {is : List Idx} (his : ∀ i ∈ is, k.state i ≠ .STOPPED) (h : k'.state = setAll k.state is .READY) :
    SameInUse k k' := by
  intro i
  rw [h]
  by_cases hi : i ∈ is
  · rw [setAll_mem _ _ hi]
    exact iff_of_false (by simp) (his i hi)
  · rw [setAll_not_mem _ _ hi]

theorem ready (hp : k.state p ≠ .STOPPED) (h : Xeros.ready k p = some k') : SameInUse k k' := by
  have e : k'.state = Function.update k.state p .READY := by rw [ready_eq h]
  exact of_update hp (by decide) e

/-- The two that met were in use. -/
theorem of_met (h : Met k k' partner f p q) (hp : k.state p ≠ .STOPPED) (hq : k.state q ≠ .STOPPED) :
    SameInUse k k' := by
  intro i
  rw [h.state, Function.update_apply, Function.update_apply]
  split
  · next hi => exact iff_of_false (by simp) (hi ▸ hq)
  · split
    · next hi => exact iff_of_false (by simp) (hi ▸ hp)
    · rfl

theorem sleep {ms : Word} (h : Sound k partner f) (hp : k.state p = .RUNNING) (hs : Xeros.sleep k p ms = some k') :
    SameInUse k k' := by
  have hused : k.state p ≠ .STOPPED := by simp [hp]
  by_cases hms : sleep_ticks ms = 0
  · have hr : Xeros.ready k p = some k' := by
      unfold Xeros.sleep at hs
      simpa [hms] using hs
    exact ready hused hr
  · have hs' := hs
    unfold Xeros.sleep at hs'
    simp only [] at hs'
    rw [if_pos hms] at hs'
    obtain ⟨⟨δ, link⟩, hw, -⟩ := Option.bind_eq_some_iff.1 hs'
    obtain ⟨xs, ys, hsplit, rfl⟩ := sleep_walk_link (h.queued.lists.chain .sleepers) hw
    obtain ⟨k1, hs1, -, e⟩ := sleep_insert h.queued.lists (h.running hp) hsplit hms hw
    cases Option.some.inj (hs1.symm.trans hs)
    have hstate : k'.state = Function.update k.state p .SLEEPING := by rw [e]
    exact of_update hused (by decide) hstate

theorem tick {nullDelta : Word} (h : Sound k partner f) (ht : Xeros.tick nullDelta k = some k') : SameInUse k k' := by
  unfold Xeros.tick at ht
  split at ht
  · cases ht
    exact of_eq rfl
  · next p hp =>
    set k1 : Kernel := { k with delta := Function.update k.delta p (k.delta p - 1) }
    have h1 : Family k1.links f := h.queued.lists
    obtain ⟨xs, ys, hsplit, -, hstate, -⟩ := Sound.tick_loop h1 ht
    apply of_setAll _ hstate
    intro i hi
    exact (h.queued.fits .sleepers i (by rw [hsplit]; exact List.mem_append_left _ hi)).ne_stopped

/-- Only a blocked process is made ready. -/
theorem signal {pid sig_no : Word} {rc : Int} (hs : Xeros.signal k pid sig_no = some (k', rc)) : SameInUse k k' := by
  rcases signal_cases hs with rfl | ⟨q, -, rfl | ⟨hblocked, k2, v, hr, rfl⟩⟩
  · exact of_eq rfl
  · exact of_eq rfl
  · have hused : (signalled k q sig_no).state q ≠ .STOPPED := fun hst => absurd (hst ▸ hblocked) (by decide)
    have h1 : SameInUse k (signalled k q sig_no) := of_eq rfl
    have h2 : SameInUse (signalled k q sig_no) k2 := ready hused hr
    exact h1.trans h2

theorem keyboard_lower {codes : List Byte} {t : List Touch} (hok : InterruptOk k codes)
    (hl : Xeros.keyboard_lower k codes = some (k', t)) : SameInUse k k' := by
  by_cases hend : k.kbd.ps.ch_read < k.kbd.ps.buf_len ∧ ReadEnds (keyboard_fill k.kbd codes)
  · rcases keyboard_lower_cases hl with ⟨hge, -⟩ | ⟨-, q, k1, rc, t1, ys, ended, rest, hq, hc, hfin⟩
    · exact absurd hend.1 hge
    have hreading := hok hend.1 hend.2 q hq
    have hstate : k1.state = k.state := by
      rw [hc.frame]
      rfl
    rcases hfin with ⟨-, rfl, -⟩ | ⟨-, hr, -⟩
    · exact of_eq hstate
    · refine (of_eq hstate).trans (ready ?_ hr)
      rw [hstate, hreading]
      decide
  · apply of_eq
    rw [keyboard_lower_idle hl hend]

end SameInUse

/-! ## Memory in use -/

/-- Stacks, nodes and the head of the free list. -/
structure KeepsBlocks (k k' : Kernel) : Prop where
  stack : k'.stack = k.stack
  pidMap : k'.pidMap = k.pidMap
  freeList : k'.freeList = k.freeList

namespace KeepsBlocks

theorem trans (h : KeepsBlocks k k1) (h' : KeepsBlocks k1 k') : KeepsBlocks k k' :=
  ⟨h'.stack.trans h.stack, h'.pidMap.trans h.pidMap, h'.freeList.trans h.freeList⟩

theorem of_moves (h : Moves k k') : KeepsBlocks k k' := by
  refine ⟨?_, ?_, ?_⟩
  · rw [h]
  · rw [h]
  · rw [h]

theorem signal {pid sig_no : Word} {rc : Int} (h : Xeros.signal k pid sig_no = some (k', rc)) : KeepsBlocks k k' := by
  rcases signal_cases h with rfl | ⟨q, -, rfl | ⟨-, k2, v, hr, rfl⟩⟩
  · exact ⟨rfl, rfl, rfl⟩
  · exact ⟨rfl, rfl, rfl⟩
  · rw [ready_eq hr]
    exact ⟨rfl, rfl, rfl⟩

theorem effect {r : Request} (hc : r ≠ .CREATE) (hs : r ≠ .STOP) (h : Effect im k k' p r) : KeepsBlocks k k' := by
  cases h with
  | moves hr hm => exact of_moves hm
  | refused h => exact absurd rfl hc
  | created q pid k1 k2 hfs hloop hins hk1 hr h => exact absurd rfl hc
  | stopped h => exact absurd rfl hs
  | registered handlers allowed h =>
    rw [h]
    exact ⟨rfl, rfl, rfl⟩
  | returned esp hi_sig irc h =>
    rw [h]
    exact ⟨rfl, rfl, rfl⟩
  | posted k1 rc v hsig h =>
    rw [h]
    have hk := signal hsig
    exact ⟨hk.stack, hk.pidMap, hk.freeList⟩
  | drives dvs hr h =>
    rw [h]
    exact ⟨rfl, rfl, rfl⟩

end KeepsBlocks

/-! ## Requests -/

/-- What every request but two keeps. -/
theorem handle_request_keeps {r : Request} {tr : Option Idx} (hc : r ≠ .CREATE) (hs : r ≠ .STOP) (h : Sound k partner f)
    (hp : Runs k p) (hok : RequestOk k partner p r) (hnamed : ∀ w, named k p r = some w → partner p = w)
    (hh : handle_request im k p r = some (k', tr)) : SameInUse k k' ∧ KeepsBlocks k k' := by
  by_cases ht : r = .TIME_INT
  · subst ht
    cases hh
    exact ⟨.of_eq rfl, ⟨rfl, rfl, rfl⟩⟩
  refine ⟨?_, .effect hc hs (handle_request_effect ht hh).1⟩
  have hrun := hp.1
  have hused := live_of_runs hp
  cases r with
  | TIME_INT => exact absurd rfl ht
  | CREATE => exact absurd rfl hc
  | STOP => exact absurd rfl hs
  | SEND =>
    obtain ⟨k1, hc, hh⟩ := Option.bind_eq_some_iff.1 hh
    cases hh
    obtain ⟨k1', hs, hcases⟩ := send_cases h hp (hnamed _ rfl) (h.send_cell hok)
    cases Option.some.inj (hs.symm.trans hc)
    rcases hcases with ⟨-, hr, -⟩ | ⟨d, hd, -, -, hm, -⟩ | ⟨d, -, -, -, -, hw, -⟩
    · exact .of_update hused (by decide) hr.state
    · exact .of_met hm hused (by simp [hd])
    · exact .of_update hused (by decide) hw.state
  | RECV =>
    obtain ⟨k1, hc, hh⟩ := Option.bind_eq_some_iff.1 hh
    cases hh
    obtain ⟨k1', hs, hcases⟩ := receive_cases h hp (hnamed _ rfl)
    cases Option.some.inj (hs.symm.trans hc)
    rcases hcases with ⟨-, hr, -⟩ | ⟨d, hd, -, -, hm, -⟩ | ⟨-, -, hw, -⟩
    · exact .of_update hused (by decide) hr.state
    · exact .of_met hm hused (h.queued.fits _ d hd).ne_stopped
    · exact .of_update hused (by decide) hw.state
  | SYS_TIMER =>
    obtain ⟨k1, hc, hh⟩ := Option.bind_eq_some_iff.1 hh
    cases hh
    exact .tick h hc
  | SLEEP =>
    obtain ⟨k1, hc, hh⟩ := Option.bind_eq_some_iff.1 hh
    cases hh
    exact .sleep h hrun hc
  | SIGHANDLER =>
    cases hh
    apply SameInUse.of_eq
    rw [register_sig_handler_eq]
  | KILL =>
    obtain ⟨⟨k1, rc⟩, hc, hh⟩ := Option.bind_eq_some_iff.1 hh
    cases hh
    exact .trans (.signal hc) (.of_eq rfl)
  | SIGWAIT =>
    cases hh
    exact .of_update hused (by decide) rfl
  | OPEN =>
    cases hh
    apply SameInUse.of_eq
    rw [di_open_drives k p (k.arg p 0)]
  | CLOSE =>
    cases hh
    apply SameInUse.of_eq
    rw [di_close_drives k p (k.arg p 0)]
  | WRITE =>
    obtain ⟨⟨rc, k1⟩, hw, hh⟩ := Option.bind_eq_some_iff.1 hh
    obtain ⟨rfl, hd⟩ := di_write_drives hw
    cases hh
    apply SameInUse.of_eq
    rw [hd]
  | READ =>
    obtain ⟨⟨rc, k1⟩, hw, hh⟩ := Option.bind_eq_some_iff.1 hh
    obtain ⟨e, hcases⟩ := di_read_cases hw
    rcases hcases with ⟨hrc, hst⟩ | ⟨rfl, hst⟩
    · simp only [if_neg hrc] at hh
      cases hh
      exact .of_eq hst
    · simp only [if_pos] at hh
      cases hh
      have hstate : Function.update k1.state p .READING = Function.update k.state p .READING := by
        rw [hst, Function.update_idem]
      exact .of_update hused (by decide) hstate
  | IO_CTL =>
    cases hh
    apply SameInUse.of_eq
    rw [di_ioctl_drives k p (k.arg p 0) (k.arg p 1) (k.arg p 2)]
  | _ =>
    cases hh
    exact .of_eq rfl

/-- The rest of a turn keeps them too. -/
theorem dispatch_next_keeps {tr : Option Idx} (h : Sound k partner f) (htr : ∀ p, tr = some p → k.state p = .RUNNING)
    (hd : dispatch_next im k tr = some s) : SameInUse k s.kernel ∧ KeepsBlocks k s.kernel := by
  obtain ⟨k1, k2, r, hk1, hsel, hend⟩ := dispatch_next_cases hd
  obtain ⟨f1, h1, hsame, hkeep⟩ : ∃ f1, Sound k1 partner f1 ∧ SameInUse k k1 ∧ KeepsBlocks k k1 := by
    rcases hk1 with ⟨-, rfl⟩ | ⟨p, rfl, hr⟩
    · exact ⟨f, h, .of_eq rfl, ⟨rfl, rfl, rfl⟩⟩
    · have hused : k.state p ≠ .STOPPED := by simp [htr p rfl]
      obtain ⟨k1', hr', h1⟩ := h.ready (h.running (htr p rfl)) hused
      cases Option.some.inj (hr'.symm.trans hr)
      exact ⟨_, h1, .ready hused hr, .of_moves (.ready hr)⟩
  obtain ⟨k2', r', f2, hsel', e2, -, -, hsome⟩ := h1.queued.select
  cases Option.some.inj (hsel'.symm.trans hsel)
  have hstate : k2.state = k1.state := by rw [e2]
  have hsame2 : SameInUse k k2 := hsame.trans (.of_eq hstate)
  have hkeep2 : KeepsBlocks k k2 := hkeep.trans (.of_moves (.select hsel))
  rcases hend with ⟨-, rfl⟩ | ⟨q, rfl, rfl⟩
  · exact ⟨hsame2, hkeep2⟩
  · have hready : k2.state q ≠ .STOPPED := by
      rw [hstate, (hsome q rfl).1]
      decide
    rw [resume_eq]
    have hruns : PState.RUNNING ≠ .STOPPED := by decide
    exact ⟨hsame2.trans (.of_update hready hruns rfl), hkeep2.stack, hkeep2.pidMap, hkeep2.freeList⟩

end Xeros
