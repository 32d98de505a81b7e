import Xeros.Kbd.Copy
/-!
# What the device calls leave alone

The calls of `di_calls.c` change the driver, the descriptors of the caller and
its return value; a read also changes memory and the state of the caller.
-/

namespace Xeros

variable {k k' : Kernel} {p : Idx}

/-! ## The drivers of the table -/

theorem dvioctl_eq : ∀ d : Device, (keyboards d).dvioctl = keyboard_ioclt
  | 0 => rfl
  | 1 => rfl

theorem dvwrite_eq : ∀ d : Device, (keyboards d).dvwrite = keyboard_write
  | 0 => rfl
  | 1 => rfl

theorem dvread_eq : ∀ d : Device, (keyboards d).dvread = keyboard_read
  | 0 => rfl
  | 1 => rfl

theorem dvopen_echo : ∀ d : Device, ∃ echo, (keyboards d).dvopen = open_with_echo echo
  | 0 => ⟨0, rfl⟩
  | 1 => ⟨1, rfl⟩

theorem open_with_echo_eq (echo : Word) (k : Kernel) (p : Idx) :
    (open_with_echo echo k p).2 = { k with kbd := (open_with_echo echo k p).2.kbd } := by
  cases hp : k.kbd.ps.pcb with
  | none =>
    rw [open_with_echo, _keyboard_open, hp]
    rfl
  | some q =>
    rw [open_with_echo, _keyboard_open, hp]
    rfl

theorem dvopen_eq (d : Device) (k : Kernel) (p : Idx) :
    ((keyboards d).dvopen k p).2 = { k with kbd := ((keyboards d).dvopen k p).2.kbd } := by
  obtain ⟨echo, hd⟩ := dvopen_echo d
  rw [hd]
  exact open_with_echo_eq echo k p

/-- Opening a device that is open changes nothing. -/
theorem dvopen_busy {q : Idx} (h : k.kbd.ps.pcb = some q) (d : Device) (p : Idx) : ((keyboards d).dvopen k p).2 = k := by
  obtain ⟨echo, hd⟩ := dvopen_echo d
  rw [hd, open_with_echo, _keyboard_open, h]
  rfl

theorem keyboard_ioclt_eq (k : Kernel) (p : Idx) (cmd ap : Word) : (keyboard_ioclt k p cmd ap).2 =
    { k with kbd := { k.kbd with ps := { k.kbd.ps with eof := (keyboard_ioclt k p cmd ap).2.kbd.ps.eof } } } := by
  unfold keyboard_ioclt
  split <;> rfl

/-! ## The calls -/

/-- What passes the check on a descriptor is open. -/
theorem opened_some {n : Int} {fd : Word} {i : Fin NUM_FD} {d : Device} (h : opened k p n fd = some (i, d)) :
    k.opened_dv p i = some d := by
  unfold opened at h
  split at h
  · obtain ⟨d', hd, e⟩ := Option.map_eq_some_iff.1 h
    cases e
    exact hd
  · cases h

theorem opened_range {n : Int} {fd : Word} {i : Fin NUM_FD} {d : Device} (h : opened k p n fd = some (i, d)) :
    fd.toInt = (i : Nat) ∧ fd.toInt < n := by
  unfold opened at h
  split at h
  · next hfd =>
    obtain ⟨d', -, e⟩ := Option.map_eq_some_iff.1 h
    cases e
    exact ⟨(Int.toNat_of_nonneg hfd.1).symm, hfd.2.1⟩
  · cases h

/-- Only the driver, descriptors and return values change. -/
def Drives (k k' : Kernel) : Prop := k' = { k with kbd := k'.kbd, opened_dv := k'.opened_dv, irc := k'.irc }

theorem di_open_drives (k : Kernel) (p : Idx) (n : Word) : Drives k (di_open keyboards k p n).2 := by
  unfold di_open
  split
  · split
    · rfl
    · simp only []
      split
      · unfold Drives set_irc
        simp only []
        rw [dvopen_eq]
      · unfold Drives set_irc
        simp only []
        rw [dvopen_eq]
  · rfl

theorem di_close_drives (k : Kernel) (p : Idx) (fd : Word) : Drives k (di_close keyboards k p fd).2 := di_close_eq k p fd

theorem di_ioctl_drives (k : Kernel) (p : Idx) (fd cmd ap : Word) : Drives k (di_ioctl keyboards k p fd cmd ap).2 := by
  unfold di_ioctl
  split
  · rfl
  · rw [devtab_at, dvioctl_eq]
    simp only []
    split
    · unfold Drives set_irc
      simp only []
      rw [keyboard_ioclt_eq]
    · unfold Drives set_irc
      simp only []
      rw [keyboard_ioclt_eq]

/-- No driver takes a write. -/
theorem di_write_drives {fd buf buf_len : Word} {rc : Int} (h : di_write keyboards k p fd buf buf_len = some (rc, k')) :
    rc = DRV_ERROR ∧ Drives k k' := by
  unfold di_write di_transfer at h
  split at h
  · cases h
    exact ⟨rfl, rfl⟩
  · obtain ⟨⟨rc1, k1⟩, h1, h⟩ := Option.bind_eq_some_iff.1 h
    rw [devtab_at, dvwrite_eq] at h1
    cases h1
    cases h
    exact ⟨rfl, rfl⟩

/-- A read changes no state, or it blocks and puts the reader into `READING`. -/
theorem di_read_cases {fd buf buf_len : Word} {rc : Int} (h : di_read keyboards k p fd buf buf_len = some (rc, k')) :
    k' = { k with mem := k'.mem, irc := k'.irc, kbd := k'.kbd, state := k'.state } ∧
      ((rc ≠ DRV_BLOCK ∧ k'.state = k.state) ∨
        rc = DRV_BLOCK ∧ k'.state = Function.update k.state p .READING) := by
  unfold di_read di_transfer at h
  split at h
  · cases h
    exact ⟨rfl, .inl ⟨by decide, rfl⟩⟩
  · obtain ⟨⟨rc1, k1⟩, h1, h⟩ := Option.bind_eq_some_iff.1 h
    rw [devtab_at, dvread_eq] at h1
    have hk1 : k1 = { k with mem := k1.mem, irc := k1.irc, kbd := k1.kbd, state := k1.state } ∧
        ((rc1 = DRV_DONE ∧ k1.state = k.state) ∨ rc1 = DRV_BLOCK ∧ k1.state = Function.update k.state p .READING) := by
      rcases (keyboard_read_cases h1).2 with ⟨hrc, -, e⟩ | ⟨hrc, -, e⟩ | ⟨hrc, -, t, xs, ended, rest, hc⟩
      · rw [e]
        exact ⟨rfl, .inr ⟨hrc, rfl⟩⟩
      · rw [e]
        exact ⟨rfl, .inl ⟨hrc, rfl⟩⟩
      · rw [hc.frame]
        exact ⟨rfl, .inl ⟨hrc, rfl⟩⟩
    rcases hk1 with ⟨e, ⟨hrc, hst⟩ | ⟨hrc, hst⟩⟩
    · subst hrc
      cases h
      exact ⟨e, .inl ⟨by decide, hst⟩⟩
    · subst hrc
      cases h
      exact ⟨e, .inr ⟨rfl, hst⟩⟩

end Xeros
