import Xeros.Kbd.Readers
import Xeros.Procs.Moves
import Xeros.Lib.Runs
import Xeros.Model.Syscall
/-!
# One process has the keyboard

Who has the keyboard open is recorded twice: in the descriptor tables of all
processes, and in the driver's `ps.pcb`, which the two devices share. `Held`
says that both records name the same descriptor, or none; every step of the
machine keeps it (`keyboard_exclusive`).
-/

namespace Xeros

open Runs

/-- A descriptor of a process. -/
abbrev Holder := Idx × Fin NUM_FD

/-- `o` is the descriptor bound to the keyboard, by both records, and belongs to
a process that exists. -/
structure Held (k : Kernel) (o : Option Holder) : Prop where
  bound : ∀ p fd, k.opened_dv p fd ≠ none ↔ o = some (p, fd)
  pcb : k.kbd.ps.pcb = o.map Prod.fst
  live : ∀ p fd, o = some (p, fd) → k.state p ≠ .STOPPED

/-- Neither record of the owner changes. -/
structure KeepsOwner (k k' : Kernel) : Prop where
  opened_dv : k'.opened_dv = k.opened_dv
  pcb : k'.kbd.ps.pcb = k.kbd.ps.pcb

namespace KeepsOwner
variable {k k1 k' : Kernel} {p : Idx}

theorem trans (h : KeepsOwner k k1) (h' : KeepsOwner k1 k') : KeepsOwner k k' :=
  ⟨h'.opened_dv.trans h.opened_dv, h'.pcb.trans h.pcb⟩

theorem of_moves (h : Moves k k') : KeepsOwner k k' := by
  constructor
  · rw [h]
  · rw [h]

/-! ## The driver -/

theorem copied {rc : Int} {t : List Touch} {xs ended rest : List Byte} (h : Copied p k k' rc t xs ended rest) :
    KeepsOwner k k' := by
  constructor
  · rw [h.frame]
  · rw [h.ps]

theorem filled (k : Kernel) (codes : List Byte) : KeepsOwner k (Xeros.filled k codes) := by
  obtain ⟨status, e, -⟩ := keyboard_fill_ps k.kbd codes
  refine ⟨rfl, ?_⟩
  change (keyboard_fill k.kbd codes).ps.pcb = _
  rw [e]

theorem keyboard_lower {codes : List Byte} {t : List Touch} (h : Xeros.keyboard_lower k codes = some (k', t)) :
    KeepsOwner k k' := by
  rcases keyboard_lower_cases h with ⟨-, rfl, -⟩ | ⟨-, q, k1, rc, t1, xs, ended, rest, -, hc, hend⟩
  · exact filled k codes
  · have h1 := trans (filled k codes) (copied hc)
    rcases hend with ⟨-, rfl, -⟩ | ⟨-, hr, -⟩
    · exact h1
    · exact trans h1 (of_moves (.ready hr))

theorem keyboard_read {buf buf_len : Word} {rc : Int} (h : Xeros.keyboard_read k p buf buf_len = some (rc, k')) :
    KeepsOwner k k' := by
  rcases (keyboard_read_cases h).2 with ⟨-, -, rfl⟩ | ⟨-, -, rfl⟩ | ⟨-, -, t, xs, ended, rest, hc⟩
  · exact ⟨rfl, rfl⟩
  · exact ⟨rfl, rfl⟩
  · have h1 : KeepsOwner k (requested k buf buf_len) := ⟨rfl, rfl⟩
    exact trans h1 (copied hc)

theorem keyboard_ioclt (k : Kernel) (p : Idx) (cmd ap : Word) : KeepsOwner k (Xeros.keyboard_ioclt k p cmd ap).2 := by
  rw [keyboard_ioclt_eq]
  exact ⟨rfl, rfl⟩

/-! ## The device calls -/

theorem set_irc (k : Kernel) (p : Idx) (v : Word) : KeepsOwner k (Xeros.set_irc k p v) := ⟨rfl, rfl⟩

/-- A transfer changes the owner no more than the driver function does. -/
theorem di_transfer {entry : Devsw → Kernel → Idx → Word → Word → Option (Int × Kernel)} {fd buf buf_len : Word} {rc : Int}
    (hentry : ∀ d rc k1, entry (keyboards d) k p buf buf_len = some (rc, k1) → KeepsOwner k k1)
    (h : Xeros.di_transfer keyboards k p entry fd buf buf_len = some (rc, k')) : KeepsOwner k k' := by
  unfold Xeros.di_transfer at h
  split at h
  · cases h
    exact set_irc k p _
  · obtain ⟨⟨rc1, k1⟩, h1, h⟩ := Option.bind_eq_some_iff.1 h
    have hk1 := hentry _ _ _ h1
    simp only [] at h
    split at h
    · cases h
      exact hk1
    · split at h
      · cases h
        exact hk1
      · cases h
        exact trans hk1 (set_irc k1 p _)

theorem di_read {fd buf buf_len : Word} {rc : Int} (h : Xeros.di_read keyboards k p fd buf buf_len = some (rc, k')) :
    KeepsOwner k k' := by
  apply di_transfer _ h
  intro d rc1 k1 h1
  rw [dvread_eq] at h1
  exact keyboard_read h1

theorem di_write {fd buf buf_len : Word} {rc : Int} (h : Xeros.di_write keyboards k p fd buf buf_len = some (rc, k')) :
    KeepsOwner k k' := by
  apply di_transfer _ h
  intro d rc1 k1 h1
  rw [dvwrite_eq] at h1
  cases h1
  exact ⟨rfl, rfl⟩

theorem di_ioctl (k : Kernel) (p : Idx) (fd cmd ap : Word) : KeepsOwner k (Xeros.di_ioctl keyboards k p fd cmd ap).2 := by
  unfold Xeros.di_ioctl
  split
  · exact set_irc k p _
  · rw [devtab_at, dvioctl_eq]
    have h1 := keyboard_ioclt k p cmd ap
    simp only []
    split
    · exact trans h1 (set_irc _ p _)
    · exact trans h1 (set_irc _ p _)

/-! ## Signals and switches -/

theorem signal {pid sig_no : Word} {rc : Int} (h : Xeros.signal k pid sig_no = some (k', rc)) : KeepsOwner k k' := by
  rcases signal_cases h with rfl | ⟨q, -, rfl | ⟨-, k2, v, hr, rfl⟩⟩
  · exact ⟨rfl, rfl⟩
  · exact ⟨rfl, rfl⟩
  · have h2 := of_moves (.ready hr)
    exact ⟨h2.opened_dv, h2.pcb⟩

theorem dispatch_next {im : Image} {tr : Option Idx} {s : Sys} (h : Xeros.dispatch_next im k tr = some s) :
    KeepsOwner k s.kernel := by
  obtain ⟨k1, k2, r, h1, h2, h3⟩ := dispatch_next_cases h
  have h01 : KeepsOwner k k1 := by
    rcases h1 with ⟨-, rfl⟩ | ⟨q, -, hr⟩
    · exact ⟨rfl, rfl⟩
    · exact of_moves (.ready hr)
  refine trans h01 (trans (of_moves (.select h2)) ?_)
  rcases h3 with ⟨-, rfl⟩ | ⟨q, -, rfl⟩
  · exact ⟨rfl, rfl⟩
  · constructor
    · rw [resume_eq]
    · rw [resume_eq]

end KeepsOwner

/-! ## Open and close -/

/-- An open fails and changes nothing but the return value, or the device was
free and a descriptor of `p` is bound to it. -/
theorem di_open_cases (k : Kernel) (p : Idx) (n : Word) :
    (di_open keyboards k p n = (DRV_ERROR, set_irc k p (-1))) ∨
    ∃ fd d, (di_open keyboards k p n).1 = DRV_DONE ∧ k.kbd.ps.pcb = none ∧
      (di_open keyboards k p n).2.kbd.ps.pcb = some p ∧
      (di_open keyboards k p n).2.opened_dv =
        Function.update k.opened_dv p (Function.update (k.opened_dv p) fd (some d)) := by
  have hopen : ∀ echo, (open_with_echo echo k p = (DRV_ERROR, k)) ∨
      (k.kbd.ps.pcb = none ∧ (open_with_echo echo k p).1 = DRV_DONE ∧
        (open_with_echo echo k p).2.kbd.ps.pcb = some p ∧ (open_with_echo echo k p).2.opened_dv = k.opened_dv) := by
    intro echo
    unfold open_with_echo _keyboard_open
    cases hp : k.kbd.ps.pcb with
    | none => exact .inr ⟨rfl, rfl, rfl, rfl⟩
    | some q => exact .inl rfl
  unfold di_open
  split
  · next hn =>
    cases hfd : free_fd k p with
    | none => exact .inl rfl
    | some fd =>
      generalize hdv : (⟨n.toInt.toNat, _⟩ : Device) = dv
      obtain ⟨echo, hdvopen⟩ := dvopen_echo dv
      simp only [hdvopen]
      rcases hopen echo with hfail | ⟨hfree, hrc, hpcb, hdvs⟩
      · rw [hfail]
        exact .inl rfl
      · rw [hrc]
        rw [if_pos rfl]
        refine .inr ⟨fd, dv, rfl, hfree, hpcb, ?_⟩
        simp only [set_irc, hdvs]
  · exact .inl rfl

/-- A close of what is not open fails and changes nothing but the return value;
every other clears the descriptor and the driver. -/
theorem di_close_cases (k : Kernel) (p : Idx) (fd : Word) :
    (opened k p NUM_FD fd = none ∧ di_close keyboards k p fd = (DRV_ERROR, set_irc k p (-1))) ∨
    ∃ i d, opened k p NUM_FD fd = some (i, d) ∧ (di_close keyboards k p fd).1 = DRV_DONE ∧
      (di_close keyboards k p fd).2.kbd.ps.pcb = none ∧
      (di_close keyboards k p fd).2.opened_dv =
        Function.update k.opened_dv p (Function.update (k.opened_dv p) i none) := by
  unfold di_close
  cases ho : opened k p NUM_FD fd with
  | none => exact .inl ⟨rfl, rfl⟩
  | some x =>
    simp only [dvclose_eq]
    exact .inr ⟨x.1, x.2, rfl, rfl, rfl, rfl⟩

/-! ## Every step keeps the owner -/

namespace Held
variable {k k' : Kernel} {p : Idx} {o : Option Holder}

theorem of_keeps (h : Held k o) (hk : KeepsOwner k k') (hn : NoNew .STOPPED k k') : Held k' o := by
  refine ⟨?_, ?_, ?_⟩
  · rw [hk.opened_dv]
    exact h.bound
  · rw [hk.pcb]
    exact h.pcb
  · intro q fd ho hst
    exact h.live q fd ho (hn q hst)

/-- A free device is bound to a descriptor. -/
theorem bind {fd : Fin NUM_FD} {d : Device} (h : Held k none) (hp : k'.state p ≠ .STOPPED)
    (hpcb : k'.kbd.ps.pcb = some p)
    (hdv : k'.opened_dv = Function.update k.opened_dv p (Function.update (k.opened_dv p) fd (some d))) :
    Held k' (some (p, fd)) := by
  have hnone : ∀ q i, k.opened_dv q i = none := by
    intro q i
    by_contra hne
    cases (h.bound q i).1 hne
  refine ⟨fun q i => ?_, hpcb, ?_⟩
  · rw [hdv]
    by_cases hq : q = p
    · subst hq
      by_cases hi : i = fd
      · simp [hi]
      · have hi' : fd ≠ i := fun e => hi e.symm
        simp [hi, hi', hnone]
    · have hq' : p ≠ q := fun e => hq e.symm
      simp [hq, hq', hnone]
  · rintro q i ⟨⟩
    exact hp

/-- The bound descriptor is cleared. -/
theorem release {fd : Fin NUM_FD} (h : Held k (some (p, fd))) (hpcb : k'.kbd.ps.pcb = none)
    (hdv : k'.opened_dv = Function.update k.opened_dv p (Function.update (k.opened_dv p) fd none)) :
    Held k' none := by
  have hother : ∀ q i, (q, i) ≠ (p, fd) → k.opened_dv q i = none := by
    intro q i hne
    by_contra hbound
    have e := (h.bound q i).1 hbound
    exact hne (Option.some.inj e).symm
  refine ⟨fun q i => ?_, hpcb, fun q i ho => by cases ho⟩
  rw [hdv]
  by_cases hq : q = p
  · subst hq
    by_cases hi : i = fd
    · simp [hi]
    · simp [hi, hother q i (by simpa using hi)]
  · simp [hq, hother q i (by simp [hq])]

theorem di_open (h : Held k o) (hp : k.state p ≠ .STOPPED) (n : Word) :
    ∃ o', Held (Xeros.di_open keyboards k p n).2 o' := by
  rcases di_open_cases k p n with hfail | ⟨fd, d, -, hfree, hpcb, hdv⟩
  · rw [hfail]
    exact ⟨o, h.of_keeps (.set_irc k p _) (.of_eq rfl)⟩
  · have ho : o = none := by
      have hpcb := h.pcb
      rw [hfree] at hpcb
      exact Option.map_eq_none_iff.1 hpcb.symm
    subst ho
    have hstate : (Xeros.di_open keyboards k p n).2.state = k.state := by rw [di_open_drives k p n]
    exact ⟨_, h.bind (by rwa [hstate]) hpcb hdv⟩

/-- A close releases nothing, or what it is called on. -/
theorem di_close (h : Held k o) (fd : Word) :
    ∃ o', Held (Xeros.di_close keyboards k p fd).2 o' ∧
      (o' = o ∧ opened k p NUM_FD fd = none ∨ o' = none ∧ ∃ i, o = some (p, i)) := by
  rcases di_close_cases k p fd with ⟨hno, hfail⟩ | ⟨i, d, ho, -, hpcb, hdv⟩
  · rw [hfail]
    exact ⟨o, h.of_keeps (.set_irc k p _) (.of_eq rfl), .inl ⟨rfl, hno⟩⟩
  · have hi := (h.bound p i).1 (by simp [opened_some ho])
    subst hi
    exact ⟨none, h.release hpcb hdv, .inr ⟨rfl, i, rfl⟩⟩

/-- A process that closes all its descriptors holds nothing afterwards. -/
theorem close_all (h : Held k o) : ∃ o', Held (Xeros.close_all keyboards k p) o' ∧
    ∀ q i, o' = some (q, i) → q ≠ p := by
  have hloop : ∀ (fds : List (Fin NUM_FD)) (k : Kernel) (o : Option Holder), Held k o →
      ∃ o', Held (fds.foldl (fun k fd =>
          if (k.opened_dv p fd).isSome then (Xeros.di_close keyboards k p (BitVec.ofNat 32 fd)).2 else k) k) o' ∧
        (o' = o ∧ (∀ i ∈ fds, o ≠ some (p, i)) ∨ o' = none) := by
    intro fds
    induction fds with
    | nil => exact fun k o h => ⟨o, h, .inl ⟨rfl, by simp⟩⟩
    | cons fd fds ih =>
      intro k o h
      rw [List.foldl_cons]
      cases hdv : k.opened_dv p fd with
      | none =>
        have hfd : o ≠ some (p, fd) := fun ho => (h.bound p fd).2 ho hdv
        obtain ⟨o', h', hcase⟩ := ih k o h
        refine ⟨o', h', hcase.imp_left fun ⟨e, hall⟩ => ⟨e, ?_⟩⟩
        intro i hi
        rcases List.mem_cons.1 hi with rfl | hi
        · exact hfd
        · exact hall i hi
      | some d =>
        obtain ⟨o1, h1, ⟨-, hno⟩ | ⟨rfl, -⟩⟩ := h.di_close (p := p) (BitVec.ofNat 32 fd)
        · rw [opened_ofNat hdv] at hno
          cases hno
        · obtain ⟨o', h', hcase⟩ := ih _ none h1
          refine ⟨o', h', .inr ?_⟩
          rcases hcase with ⟨e, -⟩ | e
          · exact e
          · exact e
  obtain ⟨o', h', hcase⟩ := hloop (List.finRange NUM_FD) k o h
  refine ⟨o', h', ?_⟩
  rintro q i rfl rfl
  rcases hcase with ⟨e, hall⟩ | e
  · exact hall i (List.mem_finRange i) e.symm
  · cases e

/-- A PCB that is taken into use has no descriptor. -/
theorem create {im : Image} {func stack parent r : Word} (h : Held k o)
    (hc : Xeros.create im k func stack parent = some (r, k')) : Held k' o := by
  have hn : NoNew .STOPPED k k' := .create (.inr rfl) hc
  rcases create_cases hc with ⟨-, e⟩ | ⟨q, k1, hfs, -, -, ⟨ptr, esp, hk1⟩, hr⟩
  · refine h.of_keeps ⟨?_, ?_⟩ hn
    · rw [e]
    · rw [e]
  · have hready := KeepsOwner.of_moves (.ready hr)
    have hempty : (fun _ => none) = k.opened_dv q := by
      funext i
      by_contra hne
      replace hne : k.opened_dv q i ≠ none := Ne.symm hne
      exact h.live q i ((h.bound q i).1 hne) (firstStopped_spec hfs)
    refine h.of_keeps (KeepsOwner.trans ⟨?_, ?_⟩ hready) hn
    · rw [hk1]
      change Function.update k.opened_dv q (fun _ => none) = k.opened_dv
      rw [hempty, Function.update_eq_self]
    · rw [hk1]
      rfl

theorem cleanup (h : Held k o) (hc : Xeros.cleanup keyboards k p = some k') : ∃ o', Held k' o' := by
  obtain ⟨k1, k2, k3, h1, h2, h3, hc⟩ := cleanup_cases hc
  obtain ⟨⟨t, hp⟩, -, hc⟩ := Option.bind_eq_some_iff.1 hc
  cases hc
  have hk2 : Held k2 o := by
    have hmoves := Moves.trans (.drain h1) (.drain h2)
    exact h.of_keeps (.of_moves hmoves) (.trans (.drain (.inr rfl) h1) (.drain (.inr rfl) h2))
  obtain ⟨o', h', hne⟩ := hk2.close_all (p := p)
  have hstate : k3.state = Function.update k2.state p .STOPPED := by rw [h3]
  have hclosed : (Xeros.close_all keyboards k2 p).state = k2.state := by rw [close_all_eq]
  refine ⟨o', ?_, ?_, ?_⟩
  · change ∀ q fd, k3.opened_dv q fd ≠ none ↔ _
    rw [h3]
    exact h'.bound
  · change k3.kbd.ps.pcb = _
    rw [h3]
    exact h'.pcb
  · intro q fd ho
    change k3.state q ≠ _
    rw [hstate, Function.update_of_ne (hne q fd ho), ← hclosed]
    exact h'.live q fd ho

theorem handle_request {im : Image} {r : Request} {tr : Option Idx} (h : Held k o) (hp : k.state p ≠ .STOPPED)
    (hh : Xeros.handle_request im k p r = some (k', tr)) : ∃ o', Held k' o' := by
  have hmoves : Moves k k' → NoNew .STOPPED k k' → ∃ o', Held k' o' := fun hm hn => ⟨o, h.of_keeps (.of_moves hm) hn⟩
  have hsame : ∀ {k1}, Held k1 o → k'.opened_dv = k1.opened_dv → k'.kbd.ps.pcb = k1.kbd.ps.pcb →
      k'.state = k1.state → ∃ o', Held k' o' := fun h1 hdv hpcb hst => ⟨o, h1.of_keeps ⟨hdv, hpcb⟩ (.of_eq hst)⟩
  cases r with
  | TIME_INT =>
    cases hh
    exact ⟨o, h⟩
  | CREATE =>
    obtain ⟨⟨r, k1⟩, hc, hh⟩ := Option.bind_eq_some_iff.1 hh
    cases hh
    exact hsame (h.create hc) rfl rfl rfl
  | YIELD =>
    cases hh
    exact ⟨o, h⟩
  | STOP =>
    obtain ⟨k1, hc, hh⟩ := Option.bind_eq_some_iff.1 hh
    cases hh
    exact h.cleanup hc
  | GET_PID =>
    cases hh
    exact hsame h rfl rfl rfl
  | GET_P_PID =>
    cases hh
    exact hsame h rfl rfl rfl
  | PUTS =>
    cases hh
    exact ⟨o, h⟩
  | SEND =>
    obtain ⟨k1, hc, hh⟩ := Option.bind_eq_some_iff.1 hh
    cases hh
    exact hmoves (.send hc) (.send (.inr rfl) hc)
  | RECV =>
    obtain ⟨k1, hc, hh⟩ := Option.bind_eq_some_iff.1 hh
    cases hh
    exact hmoves (.receive hc) (.receive (.inr rfl) hc)
  | SYS_TIMER =>
    obtain ⟨k1, hc, hh⟩ := Option.bind_eq_some_iff.1 hh
    cases hh
    exact hmoves (.tick hc) (.tick (.inr rfl) hc)
  | SLEEP =>
    obtain ⟨k1, hc, hh⟩ := Option.bind_eq_some_iff.1 hh
    cases hh
    exact hmoves (.sleep hc) (.sleep (.inr rfl) hc)
  | SIGHANDLER =>
    cases hh
    rw [register_sig_handler_eq]
    exact ⟨o, h.of_keeps ⟨rfl, rfl⟩ (.of_eq rfl)⟩
  | SIGRETURN =>
    cases hh
    exact hsame h rfl rfl rfl
  | KILL =>
    obtain ⟨⟨k1, rc⟩, hc, hh⟩ := Option.bind_eq_some_iff.1 hh
    cases hh
    exact hsame (h.of_keeps (.signal hc) (.signal (.inr rfl) hc)) rfl rfl rfl
  | SIGWAIT =>
    cases hh
    exact ⟨o, h.of_keeps ⟨rfl, rfl⟩ (.of_update rfl (by decide))⟩
  | OPEN =>
    cases hh
    exact h.di_open hp _
  | CLOSE =>
    cases hh
    obtain ⟨o', h', -⟩ := h.di_close (p := p) (k.arg p 0)
    exact ⟨o', h'⟩
  | WRITE =>
    obtain ⟨⟨rc, k1⟩, hw, hh⟩ := Option.bind_eq_some_iff.1 hh
    obtain ⟨rfl, hd⟩ := di_write_drives hw
    cases hh
    exact ⟨o, h.of_keeps (.di_write hw) (.of_drives hd)⟩
  | READ =>
    have hn : NoNew .STOPPED k k' := by
      intro i hi
      rcases NoNew.handle_request (.inr rfl) hh i hi with hi | ⟨-, -, ⟨-, hs⟩ | ⟨hr, -⟩⟩
      · exact hi
      · cases hs
      · cases hr
    obtain ⟨⟨rc, k1⟩, hr, hh⟩ := Option.bind_eq_some_iff.1 hh
    have hk := KeepsOwner.di_read hr
    simp only [] at hh
    split at hh
    · cases hh
      exact ⟨o, h.of_keeps ⟨hk.opened_dv, hk.pcb⟩ hn⟩
    · cases hh
      exact ⟨o, h.of_keeps hk hn⟩
  | IO_CTL =>
    cases hh
    exact ⟨o, h.of_keeps (.di_ioctl k p _ _ _) (.of_drives (di_ioctl_drives k p _ _ _))⟩

end Held

/-! ## Runs -/

/-- The machine: its keyboard is held by at most one process, and the running
process exists. -/
structure OwnerInv (s : Sys) : Prop where
  held : ∃ o, Held s.kernel o
  runs : ∀ p, s.cur = some p → s.kernel.state p ≠ .STOPPED

namespace OwnerInv
variable {im : Image} {k : Kernel} {s s' : Sys} {p : Idx} {o : Option Holder}

theorem dispatch_next {tr : Option Idx} (h : Held k o) (hd : Xeros.dispatch_next im k tr = some s) : OwnerInv s := by
  refine ⟨⟨o, h.of_keeps (.dispatch_next hd) (.dispatch_next (.inr rfl) hd)⟩, ?_⟩
  obtain ⟨k1, k2, r, -, -, ⟨-, rfl⟩ | ⟨q, -, rfl⟩⟩ := dispatch_next_cases hd
  · rintro p ⟨⟩
  · rintro p ⟨⟩
    rw [resume_eq]
    simp

theorem dispatch_request {r : Option Request} (h : Held k o) (hp : k.state p ≠ .STOPPED)
    (hd : Xeros.dispatch_request im k p r = some s) : OwnerInv s := by
  unfold Xeros.dispatch_request at hd
  split at hd
  · cases hd
    refine ⟨⟨o, h.of_keeps ⟨rfl, rfl⟩ (.of_eq rfl)⟩, ?_⟩
    rintro q ⟨⟩
    exact hp
  · obtain ⟨⟨k1, tr⟩, hh, hd⟩ := Option.bind_eq_some_iff.1 hd
    obtain ⟨o', h'⟩ := h.handle_request hp hh
    exact dispatch_next h' hd
  · exact dispatch_next h hd

theorem step {e : Event} (h : OwnerInv s) (ht : Xeros.step im e s = some s') : OwnerInv s' := by
  obtain ⟨p, hp, ht⟩ := Option.bind_eq_some_iff.1 ht
  obtain ⟨o, ho⟩ := h.held
  have hrun := h.runs p hp
  cases e with
  | user f =>
    cases ht
    exact ⟨⟨o, ho.of_keeps ⟨rfl, rfl⟩ (.of_eq rfl)⟩, h.runs⟩
  | keyboard codes =>
    obtain ⟨⟨k', t⟩, hl, ht⟩ := Option.bind_eq_some_iff.1 ht
    cases ht
    have hn : NoNew .STOPPED s.kernel k' := by
      intro i hi
      rcases keyboard_lower_state hl i with e | e
      · exact e ▸ hi
      · rw [e] at hi
        cases hi
    exact ⟨⟨o, ho.of_keeps (.keyboard_lower hl) hn⟩, fun q hq hst => h.runs q hq (hn q hst)⟩
  | syscall esp =>
    have ho' : Held (syscall_entry s.kernel p esp).1 o := ho.of_keeps ⟨rfl, rfl⟩ (.of_eq rfl)
    exact dispatch_request ho' hrun ht
  | timer esp eax =>
    have ho' : Held (timer_entry s.kernel p esp eax) o := ho.of_keeps ⟨rfl, rfl⟩ (.of_eq rfl)
    exact dispatch_request ho' hrun ht

theorem boot {m : Mem} {root idleproc : Word} (hb : Xeros.boot im m root idleproc = some s) : OwnerInv s := by
  have h0 : Held (init im m) none := by
    refine ⟨fun p fd => ?_, rfl, fun p fd ho => by cases ho⟩
    exact ⟨fun hne => absurd rfl hne, fun ho => by cases ho⟩
  obtain ⟨⟨pid1, k1⟩, hc1, hb⟩ := Option.bind_eq_some_iff.1 hb
  obtain ⟨⟨pid2, k2⟩, hc2, hb⟩ := Option.bind_eq_some_iff.1 hb
  have h2 := (h0.create hc1).create hc2
  obtain ⟨pcb_index, -, hb⟩ := Option.bind_eq_some_iff.1 hb
  obtain ⟨idle, -, hb⟩ := Option.bind_eq_some_iff.1 hb
  set k3 : Kernel := { k2 with idle := some idle } with hk3
  have hk : Held k3 none := h2.of_keeps ⟨rfl, rfl⟩ (.of_eq rfl)
  have h3 : Held (next k3).2 none := hk.of_keeps (.of_moves (.next k3)) (.next k3)
  simp only [] at hb
  split at hb
  · split at hb
    · next k4 hn =>
      cases hb
      rw [hn] at h3
      refine ⟨⟨none, h3⟩, ?_⟩
      rintro p ⟨⟩
    · next q k4 hn =>
      cases hb
      rw [hn] at h3
      refine ⟨⟨none, h3.of_keeps ⟨?_, ?_⟩ (.resume (.inr rfl) im k4 q)⟩, ?_⟩
      · rw [resume_eq]
      · rw [resume_eq]
      · rintro p ⟨⟩
        rw [resume_eq]
        simp
  · cases hb

end OwnerInv

/-! ## Results -/

/-- The machine after `initproc`. -/
def Booted (im : Image) (s : Sys) : Prop := ∃ m root idleproc, boot im m root idleproc = some s

/-- The keyboard has at most one owner, on whom the descriptor tables and the
driver agree. -/
structure KeyboardExclusive (k : Kernel) : Prop where
  /-- At most one descriptor of all processes is bound to a keyboard. -/
  unique : ∀ p fd q fd', k.opened_dv p fd ≠ none → k.opened_dv q fd' ≠ none → p = q ∧ fd = fd'
  /-- The driver serves the process whose descriptor it is, -/
  owner : ∀ p fd, k.opened_dv p fd ≠ none → k.kbd.ps.pcb = some p
  /-- and no process when there is none. -/
  free : (∀ p fd, k.opened_dv p fd = none) → k.kbd.ps.pcb = none
  /-- A failed open changes no table and not the driver, -/
  open_failed : ∀ p dv_no, (di_open keyboards k p dv_no).1 ≠ DRV_DONE →
    (di_open keyboards k p dv_no).2.opened_dv = k.opened_dv ∧ (di_open keyboards k p dv_no).2.kbd = k.kbd
  /-- and neither does a failed close. -/
  close_failed : ∀ p fd, (di_close keyboards k p fd).1 ≠ DRV_DONE →
    (di_close keyboards k p fd).2.opened_dv = k.opened_dv ∧ (di_close keyboards k p fd).2.kbd = k.kbd
  /-- A read that gets to the driver passes its check of the owner. -/
  read_allowed : ∀ p fd i d, opened k p NUM_DEVICE fd = some (i, d) → k.kbd.ps.pcb = some p

theorem Held.exclusive {k : Kernel} {o : Option Holder} (h : Held k o) : KeyboardExclusive k := by
  have howner : ∀ p fd, k.opened_dv p fd ≠ none → k.kbd.ps.pcb = some p := by
    intro p fd hne
    rw [h.pcb, (h.bound p fd).1 hne]
    rfl
  refine ⟨?_, howner, ?_, ?_, ?_, ?_⟩
  · intro p fd q fd' hp hq
    have hp := (h.bound p fd).1 hp
    rw [(h.bound q fd').1 hq] at hp
    cases hp
    exact ⟨rfl, rfl⟩
  · intro hnone
    rw [h.pcb]
    cases o with
    | none => rfl
    | some x => exact absurd (hnone x.1 x.2) ((h.bound x.1 x.2).2 rfl)
  · intro p n hrc
    rcases di_open_cases k p n with hfail | ⟨fd, d, hdone, -⟩
    · rw [hfail]
      exact ⟨rfl, rfl⟩
    · exact absurd hdone hrc
  · intro p fd hrc
    rcases di_close_cases k p fd with ⟨-, hfail⟩ | ⟨i, d, -, hdone, -⟩
    · rw [hfail]
      exact ⟨rfl, rfl⟩
    · exact absurd hdone hrc
  · intro p fd i d ho
    exact howner p i (by simp [opened_some ho])

/-- In every state that the machine reaches, with any number of processes and
whatever they do, one process has the keyboard or none has. -/
theorem keyboard_exclusive {im : Image} {s : Sys} (hs : Reach (step im) (Booted im) Any s) : KeyboardExclusive s.kernel := by
  have h : OwnerInv s := by
    refine hs.inv OwnerInv ?_ fun _ _ _ h _ ht => h.step ht
    rintro s ⟨m, root, idleproc, hb⟩
    exact .boot hb
  obtain ⟨o, ho⟩ := h.held
  exact ho.exclusive

theorem sampleSys_booted : Booted sampleImage sampleSys := ⟨_, _, _, (Option.some_get sampleBoot).symm⟩

/-- Process 0 sleeps with the keyboard open, and the open of process 1 fails. -/
theorem keyboard_exclusive_2_opens : ∃ s, Reach (step sampleImage) (Booted sampleImage) Any s ∧
    (s.kernel.opened_dv 0 0 = some 0 ∧ s.cur = some 1 ∧ s.kernel.irc 1 = -1) ∧ KeyboardExclusive s.kernel := by
  have h0 : Reach (step sampleImage) (Booted sampleImage) Any sampleSys := .start sampleSys_booted
  obtain ⟨s, hs, ht⟩ := h0.exec_any
    (call 0x10000 .OPEN [0] ++ call 0x10000 .SLEEP [100] ++ call 0x11000 .OPEN [1])
    (fun s => decide (s.kernel.opened_dv 0 0 = some 0 ∧ s.cur = some 1 ∧ s.kernel.irc 1 = -1)) (by decide +kernel)
  exact ⟨s, hs, of_decide_eq_true ht, keyboard_exclusive hs⟩

end Xeros
