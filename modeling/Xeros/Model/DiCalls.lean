import Xeros.Model.Kbd
/-!
# `di_calls.c`

The device independent calls, over any table of drivers, and the table
`init_keyboard` sets up.
-/

namespace Xeros

/-- `devsw`: the entry functions of a driver. Those that can reach `abort()` or
a loop return an `Option`. -/
structure Devsw where
  dvopen : Kernel → Idx → Int × Kernel
  dvclose : Kernel → Idx → Int × Kernel
  dvread : Kernel → Idx → Word → Word → Option (Int × Kernel)
  dvwrite : Kernel → Idx → Word → Word → Option (Int × Kernel)
  dvioctl : Kernel → Idx → Word → Word → Int × Kernel

/-- `devtab` after `init_keyboard`. -/
def keyboards : Device → Devsw
  | 0 => ⟨keyboard_open, keyboard_close, keyboard_read, keyboard_write, keyboard_ioclt⟩
  | 1 => ⟨keyboard_open_echo, keyboard_close, keyboard_read, keyboard_write, keyboard_ioclt⟩

section
variable (devtab : Device → Devsw) (k : Kernel) (p : Idx)

/-- The first empty slot of the descriptor table. -/
def free_fd : Option (Fin NUM_FD) := (List.finRange NUM_FD).find? fun fd => (k.opened_dv p fd).isNone

/-- `opened_dv[fd]` when the range check on `fd` against `n` passes. -/
def opened (n : Int) (fd : Word) : Option (Fin NUM_FD × Device) :=
  if h : 0 ≤ fd.toInt ∧ fd.toInt < n ∧ fd.toInt.toNat < NUM_FD then
    (k.opened_dv p ⟨fd.toInt.toNat, h.2.2⟩).map fun d => (⟨fd.toInt.toNat, h.2.2⟩, d)
  else none

/-- Sets the return value of `p`. -/
def set_irc (v : Word) : Kernel := { k with irc := Function.update k.irc p v }

def di_open (dv_no : Word) : Int × Kernel :=
  if h : 0 ≤ dv_no.toInt ∧ dv_no.toInt < NUM_DEVICE then
    let dv : Device := ⟨dv_no.toInt.toNat, by omega⟩
    match free_fd k p with
    | none => (DRV_ERROR, set_irc k p (-1))
    | some fd =>
      match (devtab dv).dvopen k p with
      | (rc, k) =>
        if rc = DRV_DONE then
          let k := { k with
            opened_dv := Function.update k.opened_dv p (Function.update (k.opened_dv p) fd (some dv)) }
          (DRV_DONE, set_irc k p (BitVec.ofNat 32 fd))
        else (DRV_ERROR, set_irc k p (-1))
  else (DRV_ERROR, set_irc k p (-1))

def di_close (fd : Word) : Int × Kernel :=
  match opened k p NUM_FD fd with
  | none => (DRV_ERROR, set_irc k p (-1))
  | some (fd, d) =>
    match (devtab d).dvclose k p with
    | (rc, k) =>
      if rc = DRV_DONE then
        let k := { k with opened_dv := Function.update k.opened_dv p (Function.update (k.opened_dv p) fd none) }
        (DRV_DONE, set_irc k p 0)
      else (DRV_ERROR, set_irc k p (-1))

/-- The driver table entry `devtab[fd]`, indexed by the descriptor. -/
def devtab_at (fd : Fin NUM_FD) : Devsw := devtab (Fin.ofNat NUM_DEVICE fd)

/-- The common part of `di_write` and `di_read`: `entry` is the driver function
they call. -/
def di_transfer (entry : Devsw → Kernel → Idx → Word → Word → Option (Int × Kernel)) (fd buf buf_len : Word) :
    Option (Int × Kernel) :=
  match opened k p NUM_DEVICE fd with
  | none => some (DRV_ERROR, set_irc k p (-1))
  | some (fd, _) => do
    let (rc, k) ← entry (devtab_at devtab fd) k p buf buf_len
    if rc = DRV_BLOCK then some (DRV_BLOCK, k)
    else if rc = DRV_DONE then some (DRV_DONE, k)
    else some (DRV_ERROR, set_irc k p (-1))

def di_write : Word → Word → Word → Option (Int × Kernel) := di_transfer devtab k p Devsw.dvwrite

def di_read : Word → Word → Word → Option (Int × Kernel) := di_transfer devtab k p Devsw.dvread

def di_ioctl (fd cmd ap : Word) : Int × Kernel :=
  match opened k p NUM_DEVICE fd with
  | none => (DRV_ERROR, set_irc k p (-1))
  | some (fd, _) =>
    match (devtab_at devtab fd).dvioctl k p cmd ap with
    | (rc, k) => if rc = DRV_DONE then (DRV_DONE, set_irc k p 0) else (DRV_ERROR, set_irc k p (-1))

end

end Xeros
