import Xeros.Interrupts.Lines
/-!
# Every interrupt reaches its entry point

Beside each request of the dispatcher stands what it does to the controllers;
the two are taken through the same cases, so that the lines follow the owner of
the keyboard in every run.
-/

namespace Xeros

open Runs

variable {im : Image} {en : Entries} {k k1 k' : Kernel} {p : Idx} {io : Io} {owner : Option Idx}

/-! ## The gates -/

theorem target_set_evec (idt : Idt) (xnum n : Fin 256) (handler : Word) :
    (set_evec idt xnum handler n).target = if n = xnum then some handler else (idt n).target := by
  unfold set_evec
  by_cases hn : n = xnum
  · subst hn
    rw [Function.update_self, if_pos rfl]
    have hjoin : (handler >>> 16).setWidth 16 ++ handler.setWidth 16 = handler := by
      ext i hi
      simp only [BitVec.getElem_append, BitVec.getElem_setWidth, BitVec.getLsbD_ushiftRight]
      split
      · rw [BitVec.getLsbD_eq_getElem]
      · have hsum : 16 + (i - 16) = i := by omega
        rw [hsum, BitVec.getLsbD_eq_getElem]
    exact congrArg some hjoin
  · rw [Function.update_of_ne hn, if_neg hn]

/-- The table of gates: three entry points of the kernel, the default entries of
the other vectors below `NID`, and nothing. -/
def GatesTo (en : Entries) (idt : Idt) : Prop := ∀ n : Fin 256, (idt n).target =
  if n = IRQBASE + 1 then some en.KeyboardISREntryPoint
  else if n = IRQBASE then some en.SystimerISREntryPoint
  else if n = SYSCALL then some en.SyscallEntryPoint
  else if h : n.val < NID then some (en.defevec ⟨n, h⟩)
  else none

/-- The loop of `initevec`. -/
theorem target_initevec (en : Entries) (io : Io) (n : Fin 256) :
    ((initevec en io).1 n).target = if h : n.val < NID then some (en.defevec ⟨n, h⟩) else none := by
  have hloop : ∀ (l : List (Fin NID)) (idt : Idt),
      (l.foldl (fun idt (i : Fin NID) => set_evec idt (Fin.ofNat 256 i) (en.defevec i)) idt n).target =
        if h : ∃ h : n.val < NID, ⟨n, h⟩ ∈ l then some (en.defevec ⟨n, h.1⟩) else (idt n).target := by
    intro l
    induction l with
    | nil => simp
    | cons i l ih =>
      intro idt
      have hi : n = Fin.ofNat 256 i ↔ ∃ h : n.val < NID, ⟨n, h⟩ = i := by
        have hlt := i.isLt
        have hmod : (Fin.ofNat 256 i.val).val = i := Nat.mod_eq_of_lt (Nat.lt_trans hlt (by decide))
        rw [Fin.ext_iff, hmod]
        constructor
        · intro e
          exact ⟨e ▸ hlt, Fin.ext e⟩
        · rintro ⟨_, e⟩
          exact congrArg Fin.val e
      rw [List.foldl_cons, ih, target_set_evec]
      by_cases hl : ∃ h : n.val < NID, ⟨n, h⟩ ∈ l
      · have hl' : ∃ h : n.val < NID, ⟨n, h⟩ ∈ i :: l := hl.imp fun _ h => List.mem_cons_of_mem _ h
        rw [dif_pos hl, dif_pos hl']
      · rw [dif_neg hl]
        by_cases hn : n = Fin.ofNat 256 i
        · obtain ⟨h, e⟩ := hi.1 hn
          have hl' : ∃ h : n.val < NID, ⟨n, h⟩ ∈ i :: l := ⟨h, e ▸ List.mem_cons_self⟩
          rw [if_pos hn, dif_pos hl', ← e]
        · have hl' : ¬∃ h : n.val < NID, ⟨n, h⟩ ∈ i :: l := by
            rintro ⟨h, hm⟩
            rcases List.mem_cons.1 hm with e | hm
            · exact hn (hi.2 ⟨h, e⟩)
            · exact hl ⟨h, hm⟩
          rw [if_neg hn, dif_neg hl']
  have h := hloop (List.finRange NID) fun _ => zeroGate
  refine h.trans ?_
  by_cases hn : n.val < NID
  · rw [dif_pos ⟨hn, List.mem_finRange _⟩, dif_pos hn]
  · rw [dif_neg (fun h => hn h.1), dif_neg hn]
    rfl

theorem init_gates (en : Entries) (io : Io) : GatesTo en (init_interrupts en io).1 := by
  intro n
  change (set_evec (set_evec (set_evec (initevec en io).1 SYSCALL _) IRQBASE _) (IRQBASE + 1) _ n).target = _
  rw [target_set_evec, target_set_evec, target_set_evec, target_initevec]

/-! ## After the start -/

theorem init8259_eq (io : Io) :
    init8259 io = ⟨⟨0xFF, 0, 0x20, 4, false, []⟩, ⟨0xFF, 0, 0x28, 2, true, []⟩, io.pit⟩ := rfl

/-- Whatever the controllers did before, all lines are masked but the clock. -/
theorem init_lines (en : Entries) (io : Io) : IrqLines (init_interrupts en io).2 none := by
  have hpit : initPIT (init8259 io) TIME_SLICE_DIV = enable_irq
      ⟨⟨0xFF, 0, 0x20, 4, false, []⟩, ⟨0xFF, 0, 0x28, 2, true, []⟩,
        ⟨TIMER_RATEGEN ||| TIMER_16BIT, none, TIMER_DIV TIME_SLICE_DIV⟩⟩ 0 0 := by
    rw [init8259_eq]
    rfl
  change IrqLines (enable_irq (initPIT (init8259 io) TIME_SLICE_DIV) 1 1) none
  rw [hpit]
  generalize hio : Io.mk _ _ _ = io1
  have hcalm : Calm io1 := by
    rw [← hio]
    exact ⟨⟨rfl, rfl⟩, ⟨rfl, rfl⟩, rfl, rfl⟩
  have hclock := hcalm.enable_irq 0 0
  have hkbd := hclock.toCalm.enable_irq 1 1
  refine ⟨hkbd.toCalm, fun irq => ?_, hkbd.pit.trans (hclock.pit.trans ?_)⟩
  · have hmask : io1.masked irq = true := by
      rw [← hio]
      revert irq
      decide
    refine (hkbd.masked irq).trans ?_
    rw [hclock.masked, hmask]
    clear hmask
    revert irq
    decide
  · rw [← hio]

/-! ## Requests -/

/-- An open that gets to a free driver enables the line, and every other leaves
the owner and the line alone. -/
theorem di_open_lines (h : IrqLines io k.kbd.ps.pcb) (p : Idx) (n : Word) :
    IrqLines (di_open_irq k p io n) (di_open keyboards k p n).2.kbd.ps.pcb := by
  unfold di_open_irq di_open
  by_cases hn : 0 ≤ n.toInt ∧ n.toInt < NUM_DEVICE
  · rw [dif_pos hn]
    cases hfd : free_fd k p with
    | none =>
      rw [if_neg (by simp)]
      exact h
    | some fd =>
      rw [if_pos ⟨hn.1, hn.2, by simp⟩]
      generalize hdv : (⟨n.toInt.toNat, _⟩ : Device) = dv
      obtain ⟨echo, hdvopen⟩ := dvopen_echo dv
      simp only [hdvopen]
      unfold _keyboard_open_irq open_with_echo _keyboard_open
      cases hpcb : k.kbd.ps.pcb with
      | none =>
        rw [if_pos rfl]
        exact h.enable p
      | some q =>
        rw [if_neg (by simp)]
        rw [hpcb] at h
        simpa [DRV_ERROR, DRV_DONE, set_irc, hpcb] using h
  · rw [dif_neg hn, if_neg (fun hc => hn ⟨hc.1, hc.2.1⟩)]
    exact h

theorem di_close_lines (h : IrqLines io k.kbd.ps.pcb) (p : Idx) (fd : Word) :
    IrqLines (di_close_irq k p io fd) (di_close keyboards k p fd).2.kbd.ps.pcb := by
  unfold di_close_irq
  rcases di_close_cases k p fd with ⟨hno, hfail⟩ | ⟨i, d, ho, -, hpcb, -⟩
  · rw [if_pos hno, hfail]
    exact h
  · have hopen : opened k p NUM_FD fd ≠ none := by
      rw [ho]
      simp
    rw [if_neg hopen, hpcb]
    exact h.disable

theorem close_all_lines (h : IrqLines io k.kbd.ps.pcb) (p : Idx) :
    IrqLines (close_all_irq k p io) (close_all keyboards k p).kbd.ps.pcb := by
  unfold close_all_irq close_all
  generalize List.finRange NUM_FD = fds
  induction fds generalizing k io with
  | nil => exact h
  | cons fd fds ih =>
    rw [List.foldl_cons, List.foldl_cons]
    by_cases hfd : (k.opened_dv p fd).isSome = true
    · simp only [if_pos hfd]
      exact ih (di_close_lines h p _)
    · simp only [if_neg hfd]
      exact ih h

theorem cleanup_lines (h : IrqLines io k.kbd.ps.pcb) (hc : cleanup keyboards k p = some k') :
    ∃ io', cleanup_irq k p io = some io' ∧ IrqLines io' k'.kbd.ps.pcb := by
  obtain ⟨k1, k2, k3, h1, h2, h3, hc⟩ := cleanup_cases hc
  obtain ⟨⟨t, hp⟩, -, hc⟩ := Option.bind_eq_some_iff.1 hc
  cases hc
  have hmoves : Moves k k2 := .trans (.drain h1) (.drain h2)
  have hpcb := (KeepsOwner.of_moves hmoves).pcb
  refine ⟨close_all_irq k2 p io, ?_, ?_⟩
  · rw [cleanup_irq, h1, Option.bind_eq_bind, Option.bind_some, h2]
    rfl
  · change IrqLines _ k3.kbd.ps.pcb
    rw [h3]
    rw [← hpcb] at h
    exact close_all_lines h p

theorem create_pcb {func stack parent r : Word} (h : create im k func stack parent = some (r, k')) :
    k'.kbd.ps.pcb = k.kbd.ps.pcb := by
  rcases create_cases h with ⟨-, e⟩ | ⟨q, k1, -, -, -, ⟨ptr, esp, hk1⟩, hready⟩
  · rw [e]
  · have hpcb : k'.kbd.ps.pcb = k1.kbd.ps.pcb := (KeepsOwner.of_moves (.ready hready)).pcb
    refine hpcb.trans ?_
    rw [hk1]
    rfl

/-- The requests that do not open or close a device leave the owner alone. -/
theorem handle_request_pcb {r : Request} {tr : Option Idx} (hr : r ≠ .STOP ∧ r ≠ .OPEN ∧ r ≠ .CLOSE)
    (h : handle_request im k p r = some (k', tr)) : k'.kbd.ps.pcb = k.kbd.ps.pcb := by
  by_cases ht : r = .TIME_INT
  · subst ht
    cases h
    rfl
  have heff := (handle_request_effect ht h).1
  cases heff with
  | moves _ hm => exact (KeepsOwner.of_moves hm).pcb
  | refused e => rw [e]
  | created q pid k1 k2 _ _ _ _ _ _ =>
    obtain ⟨⟨r, k3⟩, hc, h⟩ := Option.bind_eq_some_iff.1 h
    cases h
    have hpcb := create_pcb hc
    exact hpcb
  | stopped _ => exact absurd rfl hr.1
  | registered handlers allowed e => rw [e]
  | returned esp hi_sig irc e => rw [e]
  | posted k1 rc v hs e =>
    rw [e]
    exact (KeepsOwner.signal hs).pcb
  | drives dvs hmem _ =>
    cases r with
    | OPEN => exact absurd rfl hr.2.1
    | CLOSE => exact absurd rfl hr.2.2
    | WRITE =>
      obtain ⟨⟨rc, k1⟩, hw, h⟩ := Option.bind_eq_some_iff.1 h
      have hpcb := (KeepsOwner.di_write hw).pcb
      simp only [] at h
      split at h
      · cases h
        exact hpcb
      · cases h
        exact hpcb
    | READ =>
      obtain ⟨⟨rc, k1⟩, hw, h⟩ := Option.bind_eq_some_iff.1 h
      have hpcb := (KeepsOwner.di_read hw).pcb
      simp only [] at h
      split at h
      · cases h
        exact hpcb
      · cases h
        exact hpcb
    | IO_CTL =>
      cases h
      exact (KeepsOwner.di_ioctl k p _ _ _).pcb
    | _ => simp at hmem

/-- A request leaves the lines to the owner there is after it. -/
theorem handle_request_lines {r : Request} {tr : Option Idx} (h : IrqLines io k.kbd.ps.pcb)
    (hh : handle_request im k p r = some (k', tr)) :
    ∃ io', handle_request_irq k p io r = some io' ∧ IrqLines io' k'.kbd.ps.pcb := by
  by_cases hr : r ≠ .STOP ∧ r ≠ .OPEN ∧ r ≠ .CLOSE
  · have hio : handle_request_irq k p io r = some io := by
      cases r with
      | STOP => exact absurd rfl hr.1
      | OPEN => exact absurd rfl hr.2.1
      | CLOSE => exact absurd rfl hr.2.2
      | SYS_TIMER => exact congrArg some h.toCalm.end_of_intr
      | _ => rfl
    refine ⟨io, hio, ?_⟩
    rw [handle_request_pcb hr hh]
    exact h
  · cases r with
    | STOP =>
      obtain ⟨k1, hc, hh⟩ := Option.bind_eq_some_iff.1 hh
      cases hh
      exact cleanup_lines h hc
    | OPEN =>
      cases hh
      exact ⟨_, rfl, di_open_lines h p _⟩
    | CLOSE =>
      cases hh
      exact ⟨_, rfl, di_close_lines h p _⟩
    | _ => simp at hr

/-! ## Steps -/

theorem dispatch_lines {r : Option Request} {s : Sys} (h : IrqLines io k.kbd.ps.pcb)
    (hd : dispatch_request im k p r = some s) :
    ∃ io', dispatch_irq k p io r = some io' ∧ IrqLines io' s.kernel.kbd.ps.pcb := by
  have hnext : ∀ {k1 : Kernel} {tr : Option Idx} {io1 : Io}, IrqLines io1 k1.kbd.ps.pcb →
      dispatch_next im k1 tr = some s → IrqLines io1 s.kernel.kbd.ps.pcb := by
    intro k1 tr io1 h1 hn
    rw [(KeepsOwner.dispatch_next hn).pcb]
    exact h1
  cases r with
  | none =>
    have hd' : dispatch_next im k none = some s := hd
    exact ⟨io, rfl, hnext h hd'⟩
  | some r =>
    by_cases ht : r = .TIME_INT
    · subst ht
      cases hd
      exact ⟨io, rfl, h⟩
    · rw [dispatch_request_eq im k p ht] at hd
      obtain ⟨⟨k1, tr⟩, hh, hd⟩ := Option.bind_eq_some_iff.1 hd
      obtain ⟨io', hio, hlines⟩ := handle_request_lines h hh
      exact ⟨io', hio, hnext hlines hd⟩

/-- Between two events: the gates and the lines are in place, and the tables
agree with the driver on who has the keyboard. -/
structure IrqInv (en : Entries) (m : Machine) : Prop where
  gates : GatesTo en m.idt
  lines : IrqLines m.io m.sys.kernel.kbd.ps.pcb
  owner : OwnerInv m.sys

/-- Some process has the keyboard open. -/
def KeyboardOpen (k : Kernel) : Prop := ∃ p fd, k.opened_dv p fd ≠ none

/-- The keyboard interrupts only while it is open. -/
def KeyboardGuarded (s : Sys) (e : Event) : Prop := ∀ codes, e = .keyboard codes → KeyboardOpen s.kernel

namespace IrqInv
variable {m m' : Machine} {e : Event} {s : Sys}

theorem open_iff (h : IrqInv en m) : KeyboardOpen m.sys.kernel ↔ m.sys.kernel.kbd.ps.pcb ≠ none := by
  obtain ⟨o, ho⟩ := h.owner.held
  rw [ho.pcb]
  constructor
  · rintro ⟨p, fd, hne⟩
    rw [(ho.bound p fd).1 hne]
    simp
  · intro hne
    cases o with
    | none => exact absurd rfl hne
    | some x => exact ⟨x.1, x.2, (ho.bound x.1 x.2).2 rfl⟩

theorem irq_clock (h : IrqInv en m) :
    m.irq 0 = some (en.SystimerISREntryPoint, { m.io with master := m.io.master.serving 0 }) := by
  have hgate := h.gates IRQBASE
  rw [if_neg (by decide), if_pos rfl] at hgate
  unfold Machine.irq
  rw [h.lines.clock, Option.bind_eq_bind, Option.bind_some]
  change ((m.idt IRQBASE).target).bind _ = _
  rw [hgate]
  rfl

theorem irq_keyboard (h : IrqInv en m) (ho : KeyboardOpen m.sys.kernel) :
    m.irq 1 = some (en.KeyboardISREntryPoint, { m.io with master := m.io.master.serving 1 }) := by
  have hgate := h.gates (IRQBASE + 1)
  rw [if_pos rfl] at hgate
  unfold Machine.irq
  rw [h.lines.keyboard, if_neg (h.open_iff.1 ho), Option.bind_eq_bind, Option.bind_some]
  change ((m.idt (IRQBASE + 1)).target).bind _ = _
  rw [hgate]
  rfl

theorem irq_keyboard_closed (h : IrqInv en m) (ho : ¬KeyboardOpen m.sys.kernel) : m.irq 1 = none := by
  unfold Machine.irq
  rw [h.lines.keyboard, if_pos (by_contra fun hne => ho (h.open_iff.2 hne))]
  rfl

theorem irq_other (h : IrqInv en m) {line : Fin 16} (h0 : line ≠ 0) (h1 : line ≠ 1) : m.irq line = none := by
  unfold Machine.irq
  rw [h.lines.other h0 h1]
  rfl

/-- What `step` does, the interrupts allow, when the keyboard is open for its own. -/
theorem delivers (h : IrqInv en m) (hs : step im e m.sys = some s) (hk : KeyboardGuarded m.sys e) :
    ∃ m', irqStep im en e m = some m' ∧ m'.sys = s ∧ IrqInv en m' := by
  have howner : OwnerInv s := h.owner.step hs
  obtain ⟨p, hp, hcase⟩ := Option.bind_eq_some_iff.1 hs
  unfold irqStep
  rw [hp, hs]
  cases e with
  | user f =>
    cases hcase
    exact ⟨_, rfl, rfl, h.gates, h.lines, howner⟩
  | keyboard codes =>
    obtain ⟨⟨k', t⟩, hl, hcase⟩ := Option.bind_eq_some_iff.1 hcase
    have hpcb : s.kernel.kbd.ps.pcb = m.sys.kernel.kbd.ps.pcb := by
      cases hcase
      exact (KeepsOwner.keyboard_lower hl).pcb
    have hlines : IrqLines m.io s.kernel.kbd.ps.pcb := by
      rw [hpcb]
      exact h.lines
    refine ⟨⟨s, m.io, m.idt⟩, ?_, rfl, h.gates, hlines, howner⟩
    simp only [Option.bind_eq_bind, Option.bind_some, h.irq_keyboard (hk codes rfl), if_pos,
      (h.lines.toCalm.serve 1).1]
  | syscall esp =>
    have hgate := h.gates SYSCALL
    rw [if_neg (by decide), if_neg (by decide), if_pos rfl] at hgate
    have hlines : IrqLines m.io (syscall_entry m.sys.kernel p esp).1.kbd.ps.pcb := h.lines
    obtain ⟨io', hio, hlines'⟩ := dispatch_lines hlines hcase
    have hio' : dispatch_irq (syscall_entry m.sys.kernel p esp).1 p m.io
        Request.all[(syscall_entry m.sys.kernel p esp).2.toNat]? = some io' := hio
    refine ⟨⟨s, io', m.idt⟩, ?_, rfl, h.gates, hlines', howner⟩
    simp only [Option.bind_eq_bind, Option.bind_some, hgate, hio', if_pos]
  | timer esp eax =>
    have hlines : IrqLines m.io (timer_entry m.sys.kernel p esp eax).kbd.ps.pcb := h.lines
    obtain ⟨io', hio, hlines'⟩ := dispatch_lines hlines hcase
    have hserved : dispatch_irq (timer_entry m.sys.kernel p esp eax) p { m.io with master := m.io.master.serving 0 }
        (some .SYS_TIMER) = some m.io := congrArg some (h.lines.toCalm.serve 0).2
    have hsame : io' = m.io := by
      have e : some (end_of_intr m.io) = some io' := hio
      rw [h.lines.toCalm.end_of_intr] at e
      exact (Option.some.inj e).symm
    subst hsame
    refine ⟨⟨s, m.io, m.idt⟩, ?_, rfl, h.gates, hlines', howner⟩
    simp only [Option.bind_eq_bind, Option.bind_some, h.irq_clock, hserved, if_pos]

/-- What the machine with its interrupts does, `step` does. -/
theorem follows (h : IrqInv en m) (ht : irqStep im en e m = some m') :
    step im e m.sys = some m'.sys ∧ KeyboardGuarded m.sys e ∧ IrqInv en m' := by
  obtain ⟨p, hp, hs⟩ := Option.bind_eq_some_iff.1 ht
  obtain ⟨s, hs, hcase⟩ := Option.bind_eq_some_iff.1 hs
  have hk : KeyboardGuarded m.sys e := by
    rintro codes rfl
    by_contra hclosed
    rw [h.irq_keyboard_closed hclosed] at hcase
    cases hcase
  obtain ⟨m1, e1, rfl, hinv⟩ := h.delivers hs hk
  rw [ht] at e1
  cases e1
  exact ⟨hs, hk, hinv⟩

theorem init (hm : IrqInit im en m) : IrqInv en m := by
  obtain ⟨⟨mem, root, idleproc, hb⟩, io, hio⟩ := hm
  have hidt : m.idt = (init_interrupts en io).1 := congrArg Prod.fst hio
  have hio' : m.io = (init_interrupts en io).2 := congrArg Prod.snd hio
  have hpcb : m.sys.kernel.kbd.ps.pcb = none := by
    obtain ⟨pid1, k1, pid2, k2, idle, hc1, hc2, -, hend⟩ := boot_cases hb
    have h2 : k2.kbd.ps.pcb = none := (create_pcb hc2).trans (create_pcb hc1)
    have hnext := (KeepsOwner.of_moves (.next { k2 with idle := some idle })).pcb
    rcases hend with ⟨-, e⟩ | ⟨q, -, e⟩
    · rw [e]
      exact hnext.trans h2
    · rw [e, resume_eq]
      exact hnext.trans h2
  refine ⟨?_, ?_, .boot hb⟩
  · rw [hidt]
    exact init_gates en io
  · rw [hio', hpcb]
    exact init_lines en io

end IrqInv

theorem irq_inv {m : Machine} (hm : Reach (irqStep im en) (IrqInit im en) Any m) : IrqInv en m :=
  hm.inv (IrqInv en) (fun _ => .init) fun _ _ _ h _ ht => (h.follows ht).2.2

/-! ## Results -/

/-- In every state that the machine reaches, whatever its processes ask for: the
clock interrupts and goes to its entry point, the keyboard does exactly when
some process has it open, no other line does, and a trap goes to the system
calls. -/
theorem irq_lines {m : Machine} (hm : Reach (irqStep im en) (IrqInit im en) Any m) :
    (m.irq 0).map Prod.fst = some en.SystimerISREntryPoint ∧
    (KeyboardOpen m.sys.kernel → (m.irq 1).map Prod.fst = some en.KeyboardISREntryPoint) ∧
    (¬KeyboardOpen m.sys.kernel → m.irq 1 = none) ∧
    (∀ line, line ≠ 0 → line ≠ 1 → m.irq line = none) ∧
    (m.idt SYSCALL).target = some en.SyscallEntryPoint ∧
    m.io.pit.count = TIMER_DIV TIME_SLICE_DIV := by
  have h := irq_inv hm
  have hgate := h.gates SYSCALL
  rw [if_neg (by decide), if_neg (by decide), if_pos rfl] at hgate
  refine ⟨?_, fun ho => ?_, h.irq_keyboard_closed, fun _ => h.irq_other, hgate, ?_⟩
  · rw [h.irq_clock]
    rfl
  · rw [h.irq_keyboard ho]
    rfl
  · rw [h.lines.pit]

/-- The entry points one behind the other. -/
def sampleEntries : Entries where
  defevec := fun i => 0x1000 + 16 * BitVec.ofNat 32 i
  SyscallEntryPoint := 0x2000
  SystimerISREntryPoint := 0x2010
  KeyboardISREntryPoint := 0x2020

/-- Controllers that have masked nothing. -/
def sampleIo : Io := ⟨⟨0, 0, 8, 4, false, []⟩, ⟨0, 0, 0x70, 2, false, []⟩, ⟨0, none, 0⟩⟩

def sampleMachine : Machine where
  sys := sampleSys
  io := (init_interrupts sampleEntries sampleIo).2
  idt := (init_interrupts sampleEntries sampleIo).1

theorem sampleMachine_init : IrqInit sampleImage sampleEntries sampleMachine := ⟨sampleSys_booted, sampleIo, rfl⟩

/-- Process 0 has opened the keyboard. -/
theorem irq_lines_open : ∃ m, Reach (irqStep sampleImage sampleEntries) (IrqInit sampleImage sampleEntries) Any m ∧
    m.sys.kernel.opened_dv 0 0 = some 0 ∧ (m.irq 1).map Prod.fst = some 0x2020 := by
  have h0 : Reach (irqStep sampleImage sampleEntries) (IrqInit sampleImage sampleEntries) Any sampleMachine :=
    .start sampleMachine_init
  obtain ⟨m, hm, ht⟩ := h0.exec_any (call 0x10000 .OPEN [0])
    (fun m : Machine => decide (m.sys.kernel.opened_dv 0 0 = some 0)) (by decide +kernel)
  have ho := of_decide_eq_true ht
  refine ⟨m, hm, ho, (irq_lines hm).2.1 ⟨0, 0, ?_⟩⟩
  rw [ho]
  simp

/-- From every state that it reaches, the machine with its interrupts makes the
runs of `step` in which the keyboard interrupts only while it is open, and no
others. -/
theorem irq_runs {m : Machine} (hm : Reach (irqStep im en) (IrqInit im en) Any m) (es : List Event) (s : Sys) :
    (∃ m', Trail (irqStep im en) Any m es m' ∧ m'.sys = s) ↔ Trail (step im) KeyboardGuarded m.sys es s := by
  have h := irq_inv hm
  clear hm
  induction es generalizing m with
  | nil =>
    constructor
    · rintro ⟨m', ht, rfl⟩
      cases ht
      exact .nil
    · intro ht
      cases ht
      exact ⟨m, .nil, rfl⟩
  | cons e es ih =>
    constructor
    · rintro ⟨m', ht, rfl⟩
      cases ht with
      | cons _ hstep hrest =>
        obtain ⟨hs, hk, h1⟩ := h.follows hstep
        exact .cons hk hs ((ih h1).1 ⟨m', hrest, rfl⟩)
    · intro ht
      cases ht with
      | cons hk hs hrest =>
        obtain ⟨m1, hstep, rfl, h1⟩ := h.delivers hs hk
        obtain ⟨m', ht', e⟩ := (ih h1).2 hrest
        exact ⟨m', .cons trivial hstep ht', e⟩

/-- No interrupt of the keyboard, or process 0 has opened it. -/
def guardedEvent (s : Sys) : Event → Bool
  | .keyboard _ => decide (s.kernel.opened_dv 0 0 ≠ none)
  | _ => true

theorem guardedEvent_ok {s : Sys} {e : Event} (h : guardedEvent s e = true) : KeyboardGuarded s e := by
  rintro codes rfl
  exact ⟨0, 0, of_decide_eq_true h⟩

/-- The keyboard is opened, and a key is pressed. -/
theorem irq_runs_key : ∃ m', Trail (irqStep sampleImage sampleEntries) Any sampleMachine
    (call 0x10000 .OPEN [0] ++ [.keyboard [0x1e]]) m' ∧ m'.sys.kernel.kbd.size = 1 := by
  have h0 : Reach (irqStep sampleImage sampleEntries) (IrqInit sampleImage sampleEntries) Any sampleMachine :=
    .start sampleMachine_init
  have hrun : ((exec (step sampleImage) guardedEvent (call 0x10000 .OPEN [0] ++ [.keyboard [0x1e]]) sampleSys).any
      fun s : Sys => decide (s.kernel.kbd.size = 1)) = true := by decide +kernel
  obtain ⟨s, hs, hsize⟩ := (Option.any_eq_true _ _).1 hrun
  obtain ⟨m', ht, rfl⟩ := (irq_runs h0 _ s).2 (.of_exec (fun _ _ => guardedEvent_ok) hs)
  exact ⟨m', ht, of_decide_eq_true hsize⟩

end Xeros
