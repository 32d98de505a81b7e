import Xeros.Model.Queues
import Xeros.Model.PidMap
/-!
# `signal.c`

A delivery puts a `signal_frame` on the process's stack: the context that
starts `sigtramp`, its arguments, and the values `SIGRETURN` restores.
-/

namespace Xeros

/-- `1 << sig`. -/
def SIG_INT (sig : Nat) : Word := 1 <<< sig

/-! ## Context frames -/

/-- The words of a `contextFrame` and, behind it, of a `signal_frame`. -/
inductive FrameField where
  | edi | esi | ebp | esp | ebx | edx | ecx | eax | iret_eip | iret_cs | eflags
  | ret_addr | handler | cntx | old_sp | old_hi_sig | old_irc

def FrameField.offset : FrameField → Word
  | .edi => 0
  | .esi => 4
  | .ebp => 8
  | .esp => 12
  | .ebx => 16
  | .edx => 20
  | .ecx => 24
  | .eax => 28
  | .iret_eip => 32
  | .iret_cs => 36
  | .eflags => 40
  | .ret_addr => 44
  | .handler => 48
  | .cntx => 52
  | .old_sp => 56
  | .old_hi_sig => 60
  | .old_irc => 64

def getFrame (m : Mem) (a : Word) (f : FrameField) : Word := m.load32 (a + f.offset)

def setFrame (m : Mem) (a : Word) (f : FrameField) (v : Word) : Mem := m.store32 (a + f.offset) v

/-- Sets all general registers in a context frame to zero. -/
def zeroRegisters (m : Mem) (context : Word) : Mem :=
  let m := setFrame m context .eax 0
  let m := setFrame m context .ecx 0
  let m := setFrame m context .edx 0
  let m := setFrame m context .ebx 0
  let m := setFrame m context .esp 0
  let m := setFrame m context .ebp 0
  let m := setFrame m context .esi 0
  setFrame m context .edi 0

/-! ## Handlers -/

/-- Saves a signal handler in the PCB handlers table and sets the return value. -/
def register_sig_handler (im : Image) (k : Kernel) (p : Idx) (signal new_handler old_handler : Word) : Kernel :=
  if h : 0 ≤ signal.toInt ∧ signal.toInt < NUM_SIGNAL then
    let sig : Fin NUM_SIGNAL := ⟨signal.toInt.toNat, by omega⟩
    let k := if old_handler ≠ 0 then { k with mem := k.mem.store32 old_handler (k.sig_handler p sig) } else k
    if im.freemem.toInt ≤ new_handler.toInt then
      { k with irc := Function.update k.irc p (-2) }
    else
      let allowed := if new_handler = 0 then k.allowed_sig p &&& ~~~SIG_INT sig else k.allowed_sig p ||| SIG_INT sig
      { k with
        sig_handler := Function.update k.sig_handler p (Function.update (k.sig_handler p) sig new_handler)
        allowed_sig := Function.update k.allowed_sig p allowed
        irc := Function.update k.irc p 0 }
  else { k with irc := Function.update k.irc p (-1) }

/-- Records signal `sig_no` for the process with the given pid and unblocks it.
The second component is the return code. -/
def signal (k : Kernel) (pid sig_no : Word) : Option (Kernel × Int) :=
  if sig_no.toInt < 0 ∨ NUM_SIGNAL ≤ sig_no.toInt then
    some (k, -2)
  else
    match pidMapLookup k pid with
    | none => some (k, -1)
    | some pcb_index => do
      let p ← pcbAt pcb_index
      let sig_int := SIG_INT sig_no.toNat
      -- check if signal should be recorded for delivery
      if k.allowed_sig p &&& sig_int ≠ 0 then
        let k := { k with pending_sig := Function.update k.pending_sig p (k.pending_sig p ||| sig_int) }
        if k.state p = .STOPPED then
          none
        else if PState.READY.code < (k.state p).code ∧ (k.state p).code < PState.WAITING.code then do
          -- blocked in a system call
          let k ← ready k p
          some ({ k with irc := Function.update k.irc p (-129) }, 0)
        else if k.state p = .WAITING then do
          let k ← ready k p
          some ({ k with irc := Function.update k.irc p sig_no }, 0)
        else some (k, 0)
      else some (k, 0)

/-- The number of zero bits above the most significant bit that is set. -/
def msb_1_pos (x : Word) : Nat :=
  if x = 0 then 32
  else
    let n := 0
    let (n, x) := if x ≤ 0x0000FFFF then (n + 16, x <<< 16) else (n, x)
    let (n, x) := if x ≤ 0x00FFFFFF then (n + 8, x <<< 8) else (n, x)
    let (n, x) := if x ≤ 0x0FFFFFFF then (n + 4, x <<< 4) else (n, x)
    let (n, x) := if x ≤ 0x3FFFFFFF then (n + 2, x <<< 2) else (n, x)
    if x ≤ 0x7FFFFFFF then n + 1 else n

/-- The number of the signal to deliver. -/
def sig_to_deliver (pending_sig : Word) : Fin NUM_SIGNAL :=
  Fin.ofNat NUM_SIGNAL (NUM_SIGNAL - msb_1_pos pending_sig - 1)

/-- Puts a signal frame for the highest pending signal on the stack of `p`. -/
def deliver_signal (im : Image) (k : Kernel) (p : Idx) : Kernel :=
  -- check if there is a signal to deliver
  if k.pending_sig p &&& k.hi_sig p ≠ 0 then
    let sig_no := sig_to_deliver (k.pending_sig p)
    let new_cntx := k.esp p - SIZEOF_SIGNAL_FRAME
    let m := zeroRegisters k.mem new_cntx
    let m := setFrame m new_cntx .iret_eip im.sigtramp
    let m := setFrame m new_cntx .iret_cs im.cs
    let m := setFrame m new_cntx .eflags 0x3200
    let m := setFrame m new_cntx .ret_addr im.fake_return
    let m := setFrame m new_cntx .handler (k.sig_handler p sig_no)
    let m := setFrame m new_cntx .cntx (k.esp p)
    let m := setFrame m new_cntx .old_sp (k.esp p)
    let m := setFrame m new_cntx .old_hi_sig (k.hi_sig p)
    let m := setFrame m new_cntx .old_irc (k.irc p)
    let sig_int := SIG_INT sig_no
    { k with
      mem := m
      esp := Function.update k.esp p new_cntx
      pending_sig := Function.update k.pending_sig p (k.pending_sig p &&& ~~~sig_int)
      hi_sig := Function.update k.hi_sig p (~~~sig_int - (sig_int - 1)) }
  else k

/-- The dispatcher's SIGRETURN: back to the stack pointer `old_sp` and to the
values saved in the signal frame below it. -/
def sigreturn (k : Kernel) (p : Idx) (old_sp : Word) : Kernel :=
  let sig_frame := old_sp - SIZEOF_SIGNAL_FRAME
  { k with
    esp := Function.update k.esp p old_sp
    hi_sig := Function.update k.hi_sig p (getFrame k.mem sig_frame .old_hi_sig)
    irc := Function.update k.irc p (getFrame k.mem sig_frame .old_irc) }

end Xeros
