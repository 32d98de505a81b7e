import Xeros.Lib.Pic
import Xeros.Model.Disp
/-!
# `i386.c` and `evec.c`

The interrupts of the machine: the two controllers, the programmable timer and
the table of gates, as `initevec` and `initproc` set them up, with what the
kernel does to them afterwards. A `Machine` takes an event of `step` only when
the hardware delivers it to the entry point that serves it.
-/

namespace Xeros

/-! ## Ports -/

def ICU1 : Word := 0x20
def ICU2 : Word := 0xA0
def EOI : Byte := 0x20

def TIMER_1_PORT : Word := 0x40
def TIMER_MODE : Word := 0x43
def TIMER_SEL0 : Byte := 0x00
def TIMER_RATEGEN : Byte := 0x04
def TIMER_16BIT : Byte := 0x30
def TIMER_IRQ : Word := 0

/-- Counter 0 of the timer: its mode, the first byte of a pair, and the count
it starts again from. -/
structure Pit where
  mode : Byte
  low : Option Byte
  count : Word

/-- The ports of the two controllers and the timer. -/
structure Io where
  master : Pic
  slave : Pic
  pit : Pit

namespace Io

def outb (io : Io) (port : Word) (val : Byte) : Io :=
  if port = ICU1 then { io with master := io.master.command val }
  else if port = ICU1 + 1 then { io with master := io.master.data val }
  else if port = ICU2 then { io with slave := io.slave.command val }
  else if port = ICU2 + 1 then { io with slave := io.slave.data val }
  else if port = TIMER_MODE then { io with pit := { io.pit with mode := val, low := none } }
  else if port = TIMER_1_PORT then
    match io.pit.low with
    | none => { io with pit := { io.pit with low := some val } }
    | some low => { io with pit := { io.pit with low := none, count := (val ++ low).setWidth 32 } }
  else io

/-- Only the masks are read. -/
def inb (io : Io) (port : Word) : Byte := if port = ICU1 + 1 then io.master.imr else io.slave.imr

/-- A raised line interrupts, and its controller gives the vector; the lines
from 8 on lead to the slave, which raises line 2 of the master. -/
def acknowledge (io : Io) (irq : Fin 16) : Option (Byte × Io) :=
  if h : irq.val < 8 then
    if io.master.cascade.getLsbD irq then none
    else do
      let (v, master) ← io.master.acknowledge ⟨irq, h⟩
      some (v, { io with master := master })
  else do
    let (_, master) ← io.master.acknowledge 2
    let (v, slave) ← io.slave.acknowledge ⟨irq - 8, by omega⟩
    some (v, { io with master := master, slave := slave })

end Io

/-- The masks of all lines. The flags that `popfl` restores were saved behind the
`cli`, so interrupts stay off. -/
def disable (io : Io) : Io := (io.outb (ICU2 + 1) 0xFF).outb (ICU1 + 1) 0xFF

def init8259 (io : Io) : Io :=
  let io := io.outb ICU1 0x11
  let io := io.outb (ICU1 + 1) 0x20
  let io := io.outb (ICU1 + 1) 0x4
  let io := io.outb (ICU1 + 1) 0x1
  let io := io.outb ICU1 0xB
  let io := io.outb ICU2 0x11
  let io := io.outb (ICU2 + 1) 0x28
  let io := io.outb (ICU2 + 1) 0x2
  let io := io.outb (ICU2 + 1) 0xB
  let io := io.outb ICU2 0xB
  disable io

/-- Disables a line, or enables it when `disable` is 0. -/
def enable_irq (io : Io) (irq disable : Word) : Io :=
  let port := if irq < 8 then ICU1 + 1 else ICU2 + 1
  let irq := if irq < 8 then irq else irq - 8
  let val := io.inb port
  let val := if disable ≠ 0 then val ||| 1#8 <<< irq.toNat else val &&& ~~~(1#8 <<< irq.toNat)
  io.outb port val

def TIMER_FREQ : Word := 1193182

def TIMER_DIV (x : Word) : Word := (TIMER_FREQ + x.sdiv 2).sdiv x

def initPIT (io : Io) (divisor : Word) : Io :=
  let io := io.outb TIMER_MODE (TIMER_SEL0 ||| TIMER_RATEGEN ||| TIMER_16BIT)
  let io := io.outb TIMER_1_PORT ((TIMER_DIV divisor &&& 0xFF).setWidth 8)
  let io := io.outb TIMER_1_PORT (((TIMER_DIV divisor).sshiftRight 8).setWidth 8)
  enable_irq io TIMER_IRQ 0

/-- Signals the end of an interrupt to both controllers. -/
def end_of_intr (io : Io) : Io := (io.outb ICU1 EOI).outb ICU2 EOI

/-! ## Gates -/

def NID : Nat := 48
def IRQBASE : Fin 256 := 32
def SYSCALL : Fin 256 := 80
def IGDT_INTR : BitVec 5 := 14
def IGDT_TRAPG : BitVec 5 := 15

/-- `struct idt`, a gate of the table. -/
structure Gate where
  loffset : BitVec 16
  segsel : BitVec 16
  rsvd : BitVec 5
  mbz : BitVec 3
  type : BitVec 5
  dpl : BitVec 2
  present : BitVec 1
  hoffset : BitVec 16

abbrev Idt := Fin 256 → Gate

/-- The address that the processor goes to through a gate into kernel code. A trap
gate leaves interrupts on. -/
def Gate.target (g : Gate) : Option Word :=
  if g.present = 1 ∧ g.segsel = 0x8 ∧ (g.type = IGDT_TRAPG ∨ g.type = IGDT_INTR) then some (g.hoffset ++ g.loffset) else none

def set_evec (idt : Idt) (xnum : Fin 256) (handler : Word) : Idt :=
  Function.update idt xnum { idt xnum with
    loffset := handler.setWidth 16
    segsel := 0x8
    mbz := 0
    type := IGDT_TRAPG
    dpl := 0
    present := 1
    hoffset := (handler >>> 16).setWidth 16 }

/-- Where the linker has put the entry points of the kernel. -/
structure Entries where
  defevec : Fin NID → Word
  SyscallEntryPoint : Word
  SystimerISREntryPoint : Word
  KeyboardISREntryPoint : Word

def zeroGate : Gate := ⟨0, 0, 0, 0, 0, 0, 0, 0⟩

/-- The table that `lidt` loads. -/
def initevec (en : Entries) (io : Io) : Idt × Io :=
  ((List.finRange NID).foldl (fun idt (i : Fin NID) => set_evec idt (Fin.ofNat 256 i) (en.defevec i)) fun _ => zeroGate, init8259 io)

/-! ## The interrupts of the kernel -/

def TIME_SLICE_DIV : Word := BitVec.sdiv 1000 TIME_SLICE_MS

def initSyscall (en : Entries) (idt : Idt) : Idt := set_evec idt SYSCALL en.SyscallEntryPoint

def enableTimerInterrupt (en : Entries) (idt : Idt) (io : Io) : Idt × Io :=
  (set_evec idt IRQBASE en.SystimerISREntryPoint, initPIT io TIME_SLICE_DIV)

def set_keyboard_ISR (en : Entries) (idt : Idt) : Idt := set_evec idt (IRQBASE + 1) en.KeyboardISREntryPoint

/-- The table of drivers it sets up is `keyboards`. -/
def init_keyboard (en : Entries) (idt : Idt) (io : Io) : Idt × Io := (set_keyboard_ISR en idt, enable_irq io 1 1)

/-- `initevec`, and what `initproc` does before it creates a process. -/
def init_interrupts (en : Entries) (io : Io) : Idt × Io :=
  let (idt, io) := initevec en io
  let idt := initSyscall en idt
  let (idt, io) := enableTimerInterrupt en idt io
  init_keyboard en idt io

/-! ## The keyboard line -/

section
variable (k : Kernel) (p : Idx) (io : Io)

/-- A driver that is free enables the interrupt. -/
def _keyboard_open_irq : Io := if k.kbd.ps.pcb = none then enable_irq io 1 0 else io

def keyboard_close_irq : Io := enable_irq io 1 1

/-- The driver is called for a device that exists when there is an empty slot. -/
def di_open_irq (dv_no : Word) : Io :=
  if 0 ≤ dv_no.toInt ∧ dv_no.toInt < NUM_DEVICE ∧ free_fd k p ≠ none then _keyboard_open_irq k io else io

/-- The driver is called for a descriptor that is open. -/
def di_close_irq (fd : Word) : Io := if opened k p NUM_FD fd = none then io else keyboard_close_irq io

/-- Beside `close_all`. -/
def close_all_irq : Io :=
  ((List.finRange NUM_FD).foldl (fun (k, io) fd =>
    if (k.opened_dv p fd).isSome then
      ((di_close keyboards k p (BitVec.ofNat 32 fd)).2, di_close_irq k p io (BitVec.ofNat 32 fd))
    else (k, io)) (k, io)).2

/-- Beside `cleanup`. -/
def cleanup_irq : Option Io := do
  let k ← drain (.senders p) DRAIN_FUEL k
  let k ← drain (.receivers p) DRAIN_FUEL k
  some (close_all_irq k p io)

/-- What `dispatch` does to the controllers for a request. -/
def handle_request_irq : Request → Option Io
  | .STOP => cleanup_irq k p io
  | .SYS_TIMER => some (end_of_intr io)
  | .OPEN => some (di_open_irq k p io (k.arg p 0))
  | .CLOSE => some (di_close_irq k p io (k.arg p 0))
  | _ => some io

def dispatch_irq : Option Request → Option Io
  | some r => handle_request_irq k p io r
  | none => some io

end

/-! ## The machine with its interrupts -/

structure Machine where
  sys : Sys
  io : Io
  idt : Idt

/-- The entry point that an interrupt of a line goes to. -/
def Machine.irq (m : Machine) (line : Fin 16) : Option (Word × Io) := do
  let (v, io) ← m.io.acknowledge line
  let a ← (m.idt (Fin.ofNat 256 v.toNat)).target
  some (a, io)

/-- A step of the machine whose interrupts and traps go through the gates: those
that reach another entry point than theirs are left out. An entry is one step
here. The gates are trap gates, so the clock of the machine can come before the
`cli` of the keyboard's entry point, whose end of interrupt then waits until the
process runs again. -/
def irqStep (im : Image) (en : Entries) (e : Event) (m : Machine) : Option Machine := do
  let p ← m.sys.cur
  let sys ← step im e m.sys
  match e with
  | .user _ => some { m with sys := sys }
  | .keyboard _ => do
    let (a, io) ← m.irq 1
    if a = en.KeyboardISREntryPoint then some { m with sys := sys, io := io.outb ICU1 EOI } else none
  | .syscall esp => do
    let a ← (m.idt SYSCALL).target
    let (k, n) := syscall_entry m.sys.kernel p esp
    let io ← dispatch_irq k p m.io Request.all[n.toNat]?
    if a = en.SyscallEntryPoint then some { m with sys := sys, io := io } else none
  | .timer esp eax => do
    let (a, io) ← m.irq 0
    let io ← dispatch_irq (timer_entry m.sys.kernel p esp eax) p io (some .SYS_TIMER)
    if a = en.SystimerISREntryPoint then some { m with sys := sys, io := io } else none

/-- The machine after `initproc`, whatever the controllers did before. -/
def IrqInit (im : Image) (en : Entries) (m : Machine) : Prop :=
  (∃ mem root idleproc, boot im mem root idleproc = some m.sys) ∧ ∃ io, (m.idt, m.io) = init_interrupts en io

end Xeros
