import Xeros.Kbd.Devices
import Xeros.Kbd.Stream
/-!
# Descriptors and devices

A descriptor stands for the device it was opened on. `di_open` and `di_close`
find that device in the descriptor table; `di_read`, `di_write` and `di_ioctl`
take the descriptor for the number of the device. `descriptor_calls_iff` says
where that comes to the same, for any table of drivers.
-/

namespace Xeros

open Runs

/-! ## The system -/

/-- `openedOn` is the device on which a process has opened a descriptor. -/
structure FdSys where
  kernel : Kernel
  openedOn : Idx → Word → Option Device

inductive FdEvent where
  | di_open (p : Idx) (dv_no : Word)
  | di_close (p : Idx) (fd : Word)
  | di_write (p : Idx) (fd buf buf_len : Word)
  | di_read (p : Idx) (fd buf buf_len : Word)
  | di_ioctl (p : Idx) (fd cmd ap : Word)
  /-- A process gets the slot `p`. -/
  | created (p : Idx) (k : Kernel)
  /-- What else goes on. -/
  | other (k : Kernel)

theorem device_lt {dv_no : Word} (h : 0 ≤ dv_no.toInt ∧ dv_no.toInt < NUM_DEVICE) : dv_no.toInt.toNat < NUM_DEVICE := by
  omega

def device (dv_no : Word) : Option Device :=
  if h : 0 ≤ dv_no.toInt ∧ dv_no.toInt < NUM_DEVICE then some ⟨dv_no.toInt.toNat, device_lt h⟩ else none

def fdStep (devtab : Device → Devsw) : FdEvent → FdSys → Option FdSys
  | .di_open p dv_no, s =>
    match di_open devtab s.kernel p dv_no with
    | (rc, k) => some {
        kernel := k
        openedOn :=
          if rc = DRV_DONE then Function.update s.openedOn p (Function.update (s.openedOn p) (k.irc p) (device dv_no))
          else s.openedOn }
  | .di_close p fd, s =>
    match di_close devtab s.kernel p fd with
    | (rc, k) => some {
        kernel := k
        openedOn :=
          if rc = DRV_DONE then Function.update s.openedOn p (Function.update (s.openedOn p) fd none) else s.openedOn }
  | .di_write p fd buf buf_len, s => (di_write devtab s.kernel p fd buf buf_len).map fun r => { s with kernel := r.2 }
  | .di_read p fd buf buf_len, s => (di_read devtab s.kernel p fd buf buf_len).map fun r => { s with kernel := r.2 }
  | .di_ioctl p fd cmd ap, s => some { s with kernel := (di_ioctl devtab s.kernel p fd cmd ap).2 }
  | .created p k, s => some { kernel := k, openedOn := Function.update s.openedOn p fun _ => none }
  | .other k, s => some { s with kernel := k }

def FdInit (s : FdSys) : Prop := (s.kernel.opened_dv = fun _ _ => none) ∧ s.openedOn = fun _ _ => none

/-- The rest of the kernel empties the descriptor table of a new process, and
touches no other. -/
def FdOk (s : FdSys) : FdEvent → Prop
  | .created p k => k.opened_dv = Function.update s.kernel.opened_dv p fun _ => none
  | .other k => k.opened_dv = s.kernel.opened_dv
  | _ => True

/-- A test for events that are allowed in every state. -/
def FdEvent.isOpen : FdEvent → Bool
  | .di_open .. => true
  | _ => false

theorem fdOk_of_isOpen {s : FdSys} {e : FdEvent} (h : e.isOpen = true) : FdOk s e := by
  cases e with
  | di_open p dv_no => trivial
  | _ => cases h

/-! ## What a call should do -/

/-- A read or write by the function `entry` of a driver. -/
def transfer (entry : Kernel → Idx → Word → Word → Option (Int × Kernel)) (k : Kernel) (p : Idx) (buf buf_len : Word) :
    Option (Int × Kernel) := do
  let (rc, k) ← entry k p buf buf_len
  if rc = DRV_BLOCK then some (DRV_BLOCK, k)
  else if rc = DRV_DONE then some (DRV_DONE, k)
  else some (DRV_ERROR, set_irc k p (-1))

/-- A configuration by the function `entry` of a driver. -/
def configure (entry : Kernel → Idx → Word → Word → Int × Kernel) (k : Kernel) (p : Idx) (cmd ap : Word) : Int × Kernel :=
  match entry k p cmd ap with
  | (rc, k) => if rc = DRV_DONE then (DRV_DONE, set_irc k p 0) else (DRV_ERROR, set_irc k p (-1))

/-- As functions of the table the calls on `fd` are calls of the driver of `d`. -/
structure CallsDevice (k : Kernel) (p : Idx) (fd : Word) (d : Device) : Prop where
  read : ∀ devtab buf buf_len, di_read devtab k p fd buf buf_len = transfer (devtab d).dvread k p buf buf_len
  write : ∀ devtab buf buf_len, di_write devtab k p fd buf buf_len = transfer (devtab d).dvwrite k p buf buf_len
  ioctl : ∀ devtab cmd ap, di_ioctl devtab k p fd cmd ap = configure (devtab d).dvioctl k p cmd ap

/-- The calls on `fd` fail, and no driver is called. -/
structure CallsNone (k : Kernel) (p : Idx) (fd : Word) : Prop where
  read : ∀ devtab buf buf_len, di_read devtab k p fd buf buf_len = some (DRV_ERROR, set_irc k p (-1))
  write : ∀ devtab buf buf_len, di_write devtab k p fd buf buf_len = some (DRV_ERROR, set_irc k p (-1))
  ioctl : ∀ devtab cmd ap, di_ioctl devtab k p fd cmd ap = (DRV_ERROR, set_irc k p (-1))

/-- The calls on `fd` go to the device it was opened on, if it is open. -/
def AnswersRight (s : FdSys) (p : Idx) (fd : Word) : Prop :=
  match s.openedOn p fd with
  | some d => CallsDevice s.kernel p fd d
  | none => CallsNone s.kernel p fd

/-! ## Where they agree -/

/-- The slot of the descriptor table for `fd`. -/
def slot (k : Kernel) (p : Idx) (fd : Word) : Option Device :=
  if h : 0 ≤ fd.toInt ∧ fd.toInt < NUM_FD then k.opened_dv p ⟨fd.toInt.toNat, by omega⟩ else none

/-- An open descriptor has the number of its device and its slot is not empty;
the slot of another is empty, or has no device's number. -/
def RightSlot (s : FdSys) (p : Idx) (fd : Word) : Prop :=
  match s.openedOn p fd with
  | some d => (slot s.kernel p fd).isSome ∧ fd.toInt = d
  | none => slot s.kernel p fd = none ∨ NUM_DEVICE ≤ fd.toInt

/-- The functions of the driver leave the descriptor tables alone. -/
structure Devsw.KeepsTables (dv : Devsw) : Prop where
  dvopen : ∀ k p, (dv.dvopen k p).2.opened_dv = k.opened_dv
  dvclose : ∀ k p, (dv.dvclose k p).2.opened_dv = k.opened_dv
  dvread : ∀ k p buf buf_len rc k', dv.dvread k p buf buf_len = some (rc, k') → k'.opened_dv = k.opened_dv
  dvwrite : ∀ k p buf buf_len rc k', dv.dvwrite k p buf buf_len = some (rc, k') → k'.opened_dv = k.opened_dv
  dvioctl : ∀ k p cmd ap, (dv.dvioctl k p cmd ap).2.opened_dv = k.opened_dv

/-! ## A call -/

section
variable {k : Kernel} {p : Idx} {fd : Word} {d d' : Device} {i : Fin NUM_FD}

/-- The number of a slot as a descriptor. -/
theorem toInt_fd (i : Fin NUM_FD) : (BitVec.ofNat 32 i : Word).toInt = (i : Nat) := by
  have hi : (i : Nat) < 4 := i.isLt
  rw [BitVec.toInt_ofNat', Int.bmod_eq_of_le] <;> omega

theorem eq_fd {i : Fin NUM_FD} (h : fd.toInt = (i : Nat)) : fd = BitVec.ofNat 32 i :=
  BitVec.eq_of_toInt_eq (h.trans (toInt_fd i).symm)

theorem slot_fd (k : Kernel) (p : Idx) (i : Fin NUM_FD) : slot k p (BitVec.ofNat 32 i) = k.opened_dv p i := by
  have hlt : ((i : Nat) : Int) < NUM_FD := Int.ofNat_lt.2 i.isLt
  rw [slot, dif_pos (by rw [toInt_fd]; exact ⟨Int.natCast_nonneg _, hlt⟩)]
  congr 1
  apply Fin.ext
  simp only [toInt_fd, Int.toNat_natCast]

theorem opened_none_iff : opened k p NUM_DEVICE fd = none ↔ slot k p fd = none ∨ NUM_DEVICE ≤ fd.toInt := by
  unfold opened slot
  by_cases hfd : 0 ≤ fd.toInt ∧ fd.toInt < NUM_DEVICE
  · have h4 : fd.toInt < NUM_FD := Int.lt_trans hfd.2 (by decide)
    rw [dif_pos ⟨hfd.1, hfd.2, by omega⟩, dif_pos ⟨hfd.1, h4⟩, Option.map_eq_none_iff]
    exact (or_iff_left (Int.not_le.2 hfd.2)).symm
  · rw [dif_neg fun h => hfd ⟨h.1, h.2.1⟩]
    refine iff_of_true rfl ?_
    by_cases h0 : 0 ≤ fd.toInt
    · exact .inr (Int.not_lt.1 fun h => hfd ⟨h0, h⟩)
    · exact .inl (dif_neg fun h => h0 h.1)

theorem callsNone_of_opened (h : opened k p NUM_DEVICE fd = none) : CallsNone k p fd := by
  refine ⟨?_, ?_, ?_⟩
  · intros
    rw [di_read, di_transfer, h]
  · intros
    rw [di_write, di_transfer, h]
  · intros
    rw [di_ioctl, h]

/-- The descriptor is taken for the number of the device. -/
theorem callsDevice_of_opened (h : opened k p NUM_DEVICE fd = some (i, d)) :
    CallsDevice k p fd (Fin.ofNat NUM_DEVICE i) := by
  refine ⟨?_, ?_, ?_⟩
  · intros
    rw [di_read, di_transfer, h]
    rfl
  · intros
    rw [di_write, di_transfer, h]
    rfl
  · intros
    rw [di_ioctl, h]
    rfl

/-- Drivers of which only that of `d` can be configured. -/
def configures (d e : Device) : Devsw where
  dvopen k _ := (DRV_ERROR, k)
  dvclose k _ := (DRV_ERROR, k)
  dvread k _ _ _ := some (DRV_ERROR, k)
  dvwrite k _ _ _ := some (DRV_ERROR, k)
  dvioctl k _ _ _ := (if e = d then DRV_DONE else DRV_ERROR, k)

theorem configure_configures (d e : Device) :
    (configure (configures d e).dvioctl k p 0 0).1 = if e = d then DRV_DONE else DRV_ERROR := by
  by_cases h : e = d
  · simp [configure, configures, h]
  · have hne : ¬DRV_ERROR = DRV_DONE := by decide
    simp [configure, configures, h, hne]

theorem CallsDevice.unique (h : CallsDevice k p fd d) (h' : CallsDevice k p fd d') : d = d' := by
  have e := congrArg (·.1) ((h.ioctl (configures d) 0 0).symm.trans (h'.ioctl (configures d) 0 0))
  simp only [configure_configures, if_pos] at e
  by_contra hne
  rw [if_neg (Ne.symm hne)] at e
  cases e

theorem CallsDevice.not_none (h : CallsDevice k p fd d) : ¬CallsNone k p fd := by
  intro h'
  have e := congrArg (·.1) ((h.ioctl (configures d) 0 0).symm.trans (h'.ioctl (configures d) 0 0))
  simp only [configure_configures, if_pos] at e
  cases e

theorem callsNone_iff : CallsNone k p fd ↔ slot k p fd = none ∨ NUM_DEVICE ≤ fd.toInt := by
  rw [← opened_none_iff]
  cases ho : opened k p NUM_DEVICE fd with
  | none => exact iff_of_true (callsNone_of_opened ho) rfl
  | some x => exact iff_of_false (callsDevice_of_opened ho).not_none nofun

theorem callsDevice_iff : CallsDevice k p fd d ↔ (slot k p fd).isSome ∧ fd.toInt = d := by
  have hd : (d : Nat) < 2 := d.isLt
  cases ho : opened k p NUM_DEVICE fd with
  | none =>
    refine iff_of_false (fun h => h.not_none (callsNone_of_opened ho)) ?_
    rintro ⟨hsome, hfd⟩
    rcases opened_none_iff.1 ho with hslot | hfd'
    · rw [hslot] at hsome
      cases hsome
    · omega
  | some x =>
    obtain ⟨i, e⟩ := x
    obtain ⟨hfd, hlt⟩ := opened_range ho
    have hcalls := callsDevice_of_opened ho
    have hval : ((Fin.ofNat NUM_DEVICE i : Device) : Nat) = i := Nat.mod_eq_of_lt (Int.ofNat_lt.1 (hfd ▸ hlt))
    have hslot : slot k p fd = some e := by
      rw [eq_fd hfd, slot_fd]
      exact opened_some ho
    rw [hslot]
    constructor
    · intro h
      rw [hcalls.unique h] at hval
      exact ⟨rfl, by omega⟩
    · rintro ⟨-, hfd'⟩
      have e : (Fin.ofNat NUM_DEVICE i : Device) = d := Fin.ext (by omega)
      rwa [e] at hcalls

theorem answersRight_iff {s : FdSys} : AnswersRight s p fd ↔ RightSlot s p fd := by
  unfold AnswersRight RightSlot
  cases s.openedOn p fd with
  | none => exact callsNone_iff
  | some d => exact callsDevice_iff

end

/-! ## Drivers that leave the tables alone -/

section
variable {devtab : Device → Devsw} {k k' : Kernel} {p q : Idx} {fd : Word}

theorem slot_congr (h : k'.opened_dv = k.opened_dv) : slot k' = slot k := by
  funext p fd
  rw [slot, slot, h]

theorem slot_update {v : Option Device} {i : Fin NUM_FD}
    (h : k'.opened_dv = Function.update k.opened_dv p (Function.update (k.opened_dv p) i v)) :
    slot k' = Function.update (slot k) p (Function.update (slot k p) (BitVec.ofNat 32 i) v) := by
  funext q fd
  by_cases hq : q = p
  · subst hq
    rw [Function.update_self]
    by_cases hfd : fd = BitVec.ofNat 32 i
    · subst hfd
      rw [Function.update_self, slot_fd, h, Function.update_self, Function.update_self]
    · rw [Function.update_of_ne hfd, slot, slot]
      split
      · next hr =>
        have hne : (⟨fd.toInt.toNat, by omega⟩ : Fin NUM_FD) ≠ i := by
          rintro rfl
          exact hfd (eq_fd (Int.toNat_of_nonneg hr.1).symm)
        rw [h, Function.update_self, Function.update_of_ne hne]
      · rfl
  · rw [Function.update_of_ne hq, slot, slot, h, Function.update_of_ne hq]

theorem di_open_slots (hkeep : ∀ d, (devtab d).KeepsTables) (k : Kernel) (p : Idx) (dv_no : Word) :
    ((di_open devtab k p dv_no).1 = DRV_ERROR ∧ slot (di_open devtab k p dv_no).2 = slot k) ∨
      (di_open devtab k p dv_no).1 = DRV_DONE ∧ slot (di_open devtab k p dv_no).2 =
        Function.update (slot k) p (Function.update (slot k p) ((di_open devtab k p dv_no).2.irc p) (device dv_no)) := by
  unfold di_open
  split
  · next hdv =>
    have hdevice : device dv_no = some ⟨dv_no.toInt.toNat, by omega⟩ := dif_pos hdv
    cases free_fd k p with
    | none => exact .inl ⟨rfl, rfl⟩
    | some i =>
      have hopen := (hkeep ⟨dv_no.toInt.toNat, by omega⟩).dvopen k p
      simp only []
      split
      · refine .inr ⟨rfl, ?_⟩
        simp only [hdevice, set_irc, Function.update_self]
        apply slot_update
        simp only [hopen]
      · exact .inl ⟨rfl, slot_congr hopen⟩
  · exact .inl ⟨rfl, rfl⟩

theorem di_close_slots (hkeep : ∀ d, (devtab d).KeepsTables) (k : Kernel) (p : Idx) (fd : Word) :
    ((di_close devtab k p fd).1 = DRV_ERROR ∧ slot (di_close devtab k p fd).2 = slot k) ∨
      (di_close devtab k p fd).1 = DRV_DONE ∧
        slot (di_close devtab k p fd).2 = Function.update (slot k) p (Function.update (slot k p) fd none) := by
  unfold di_close
  cases ho : opened k p NUM_FD fd with
  | none => exact .inl ⟨rfl, rfl⟩
  | some x =>
    obtain ⟨i, d⟩ := x
    have hclose := (hkeep d).dvclose k p
    simp only []
    split
    · refine .inr ⟨rfl, ?_⟩
      rw [eq_fd (opened_range ho).1]
      apply slot_update
      simp only [set_irc, hclose]
    · exact .inl ⟨rfl, slot_congr hclose⟩

theorem di_transfer_slots {entry : Devsw → Kernel → Idx → Word → Word → Option (Int × Kernel)} {fd buf buf_len : Word}
    {rc : Int} (hentry : ∀ d rc k1, entry (devtab d) k p buf buf_len = some (rc, k1) → k1.opened_dv = k.opened_dv)
    (h : di_transfer devtab k p entry fd buf buf_len = some (rc, k')) : slot k' = slot k := by
  unfold di_transfer at h
  split at h
  · cases h
    rfl
  · obtain ⟨⟨rc1, k1⟩, h1, h⟩ := Option.bind_eq_some_iff.1 h
    have hk1 := hentry _ _ _ h1
    simp only [] at h
    split at h
    · cases h
      exact slot_congr hk1
    · split at h
      · cases h
        exact slot_congr hk1
      · cases h
        exact slot_congr hk1

theorem di_ioctl_slots (hkeep : ∀ d, (devtab d).KeepsTables) (k : Kernel) (p : Idx) (fd cmd ap : Word) :
    slot (di_ioctl devtab k p fd cmd ap).2 = slot k := by
  unfold di_ioctl
  split
  · rfl
  · next i _ _ =>
    have hioctl := (hkeep (Fin.ofNat NUM_DEVICE i)).dvioctl k p cmd ap
    simp only []
    split
    · exact slot_congr hioctl
    · exact slot_congr hioctl

/-- The descriptor tables hold what has been opened and not closed. -/
theorem fdStep_slots (hkeep : ∀ d, (devtab d).KeepsTables) {s s' : FdSys} {e : FdEvent}
    (h : s.openedOn = slot s.kernel) (hok : FdOk s e) (ht : fdStep devtab e s = some s') :
    s'.openedOn = slot s'.kernel := by
  cases e with
  | di_open p dv_no =>
    have hslots := di_open_slots hkeep s.kernel p dv_no
    rcases hr : di_open devtab s.kernel p dv_no with ⟨rc, k⟩
    simp only [fdStep, hr, Option.some.injEq] at hslots ht
    subst ht
    rcases hslots with ⟨rfl, hslot⟩ | ⟨rfl, hslot⟩
    · exact h.trans hslot.symm
    · rw [hslot, ← h]
      rfl
  | di_close p fd =>
    have hslots := di_close_slots hkeep s.kernel p fd
    rcases hr : di_close devtab s.kernel p fd with ⟨rc, k⟩
    simp only [fdStep, hr, Option.some.injEq] at hslots ht
    subst ht
    rcases hslots with ⟨rfl, hslot⟩ | ⟨rfl, hslot⟩
    · exact h.trans hslot.symm
    · rw [hslot, ← h]
      rfl
  | di_write p fd buf buf_len =>
    obtain ⟨⟨rc, k⟩, hw, ht⟩ := Option.map_eq_some_iff.1 ht
    cases ht
    exact h.trans (di_transfer_slots (fun d _ _ => (hkeep d).dvwrite _ _ _ _ _ _) hw).symm
  | di_read p fd buf buf_len =>
    obtain ⟨⟨rc, k⟩, hr, ht⟩ := Option.map_eq_some_iff.1 ht
    cases ht
    exact h.trans (di_transfer_slots (fun d _ _ => (hkeep d).dvread _ _ _ _ _ _) hr).symm
  | di_ioctl p fd cmd ap =>
    cases ht
    exact h.trans (di_ioctl_slots hkeep s.kernel p fd cmd ap).symm
  | created p k =>
    cases ht
    funext q fd
    have hdv : k.opened_dv = Function.update s.kernel.opened_dv p fun _ => none := hok
    by_cases hq : q = p
    · subst hq
      simp [slot, hdv]
    · simp [slot, hdv, hq, h]
  | other k =>
    cases ht
    exact h.trans (slot_congr hok).symm

end

/-- The keyboards leave the descriptor tables alone. -/
theorem keyboards_keep (d : Device) : (keyboards d).KeepsTables := by
  refine ⟨fun k p => ?_, fun k p => ?_, fun k p buf buf_len rc k' h => ?_, fun k p buf buf_len rc k' h => ?_,
    fun k p cmd ap => ?_⟩
  · rw [dvopen_eq]
  · rw [dvclose_eq]
    rfl
  · rw [dvread_eq] at h
    rcases (keyboard_read_cases h).2 with ⟨-, -, rfl⟩ | ⟨-, -, rfl⟩ | ⟨-, -, t, xs, ended, rest, hc⟩
    · rfl
    · rfl
    · rw [hc.frame]
      rfl
  · rw [dvwrite_eq] at h
    cases h
    rfl
  · rw [dvioctl_eq, keyboard_ioclt_eq]

/-! ## Results -/

/-- In every run with any drivers, the calls on a descriptor go where they
should exactly when its slot is right; and with drivers that leave the
descriptor tables alone the slots are wrong only where a descriptor does not
have the number of the device it was opened on. -/
theorem descriptor_calls_iff {devtab : Device → Devsw} {s : FdSys} (hs : Reach (fdStep devtab) FdInit FdOk s) (p : Idx)
    (fd : Word) : (AnswersRight s p fd ↔ RightSlot s p fd) ∧
      ((∀ d, (devtab d).KeepsTables) → (RightSlot s p fd ↔ ∀ d, s.openedOn p fd = some d → fd.toInt = d)) := by
  refine ⟨answersRight_iff, fun hkeep => ?_⟩
  have hslot : s.openedOn = slot s.kernel := by
    apply hs.inv (fun s => s.openedOn = slot s.kernel)
    · intro s h
      funext p fd
      simp [slot, h.1, h.2]
    · exact fun s s' e h hok ht => fdStep_slots hkeep h hok ht
  unfold RightSlot
  rw [← hslot]
  cases s.openedOn p fd with
  | none => exact iff_of_true (.inl rfl) nofun
  | some d =>
    constructor
    · rintro ⟨-, hfd⟩ e he
      rwa [← Option.some.inj he]
    · exact fun h => ⟨rfl, h d rfl⟩

def noDescriptors : FdSys := { kernel := alone, openedOn := fun _ _ => none }

/-- The first keyboard is opened and gets descriptor 0. -/
theorem descriptor_calls_iff_0 : ∃ s, Reach (fdStep keyboards) FdInit FdOk s ∧ s.openedOn 0 0 = some 0 ∧
    AnswersRight s 0 0 := by
  have h0 : Reach (fdStep keyboards) FdInit FdOk noDescriptors := .start ⟨rfl, rfl⟩
  obtain ⟨s, hs, ht⟩ := h0.exec_ok (fun _ e => e.isOpen) (fun _ _ => fdOk_of_isOpen)
    [.di_open 0 0] (fun s => decide (s.openedOn 0 0 = some 0)) (by decide +kernel)
  have hopened : s.openedOn 0 0 = some 0 := of_decide_eq_true ht
  obtain ⟨hright, hslots⟩ := descriptor_calls_iff hs 0 0
  refine ⟨s, hs, hopened, hright.2 ((hslots keyboards_keep).2 fun d hd => ?_)⟩
  rw [← Option.some.inj (hopened.symm.trans hd)]
  rfl

/-- The second keyboard is opened and gets descriptor 0, which is taken for the
first. -/
theorem echo_keyboard_misread : ¬∀ s p fd, Reach (fdStep keyboards) FdInit FdOk s → AnswersRight s p fd := by
  intro hall
  have h0 : Reach (fdStep keyboards) FdInit FdOk noDescriptors := .start ⟨rfl, rfl⟩
  obtain ⟨s, hs, ht⟩ := h0.exec_ok (fun _ e => e.isOpen) (fun _ _ => fdOk_of_isOpen)
    [.di_open 0 1] (fun s => decide (s.openedOn 0 0 = some 1)) (by decide +kernel)
  have hopened : s.openedOn 0 0 = some 1 := of_decide_eq_true ht
  have hright := answersRight_iff.1 (hall s 0 0 hs)
  rw [RightSlot, hopened] at hright
  exact absurd hright.2 (by decide)

end Xeros
