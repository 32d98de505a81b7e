import Xeros.Model.Queues
import Xeros.Model.PidMap
import Xeros.Model.Signal
/-!
# `create.c`
-/

namespace Xeros

/-- More turns than there are pids: a search that outlives it never ends. -/
def PID_FUEL : Nat := 2 ^ 32 + 1

/-- `while (!nextPid || pidMapLookup(nextPid, &pcbIndex) == OK) nextPid++`. -/
def getNextPid_loop (pidMap : TreeNode) : Nat → Word → Option Word
  | 0, _ => none
  | fuel + 1, nextPid =>
    if nextPid = 0 ∨ (lookup pidMap nextPid).isSome then getNextPid_loop pidMap fuel (nextPid + 1) else some nextPid

/-- Returns next unused non-zero pid. -/
def getNextPid (k : Kernel) : Option (Word × Kernel) := do
  let pid ← getNextPid_loop k.pidMap PID_FUEL k.nextPid
  some (pid, { k with nextPid := pid + 1 })

/-- The first usable PCB. -/
def firstStopped (k : Kernel) : Option Idx := (List.finRange MAX_NUM_PROCESS).find? fun i => k.state i = .STOPPED

/-- The first context of a process: it starts at `func` and calls `sysstop`
when it runs out of code. -/
def first_context (im : Image) (m : Mem) (context func : Word) : Mem :=
  let m := zeroRegisters m context
  let m := setFrame m context .iret_eip func
  let m := setFrame m context .iret_cs im.cs
  let m := setFrame m context .eflags 0x3200
  m.store32 (context + SIZEOF_CONTEXTFRAME) im.sysstop

/-- Resets the fields of a PCB that is taken into use. -/
def reset_pcb (k : Kernel) (p : Idx) : Kernel :=
  { k with
    next := Function.update k.next p none
    senders := Function.update k.senders p none
    receivers := Function.update k.receivers p none
    sig_handler := Function.update k.sig_handler p fun _ => 0
    pending_sig := Function.update k.pending_sig p 0
    allowed_sig := Function.update k.allowed_sig p 0
    hi_sig := Function.update k.hi_sig p 0xFFFFFFFF
    delta := Function.update k.delta p 0
    iargs := Function.update k.iargs p 0
    irc := Function.update k.irc p 0
    opened_dv := Function.update k.opened_dv p fun _ => none }

/-- Creates a process; the first component is its pid or `SYSERR`. -/
def create (im : Image) (k : Kernel) (func stack parent : Word) : Option (Word × Kernel) := do
  -- in addition to the stack, some space for a safety margin and context frame
  let mallocSize := stack + SAFETY_MARGIN + SIZEOF_CONTEXTFRAME
  let (ptr, h) ← kmalloc k.toHeap mallocSize
  let k := { k with toHeap := h }
  if ptr ≠ 0 then
    match firstStopped k with
    | some p => do
      let (pid, k) ← getNextPid k
      let k := { k with
        pid := Function.update k.pid p pid
        parentPid := Function.update k.parentPid p parent
        stack := Function.update k.stack p ptr }
      let k ← pidMapInsert k pid (pcbIndex p)
      let esp := ptr + align16 stack
      let k := { k with
        esp := Function.update k.esp p esp
        mem := first_context im k.mem esp func }
      let k := reset_pcb k p
      let k ← ready k p
      some (pid, k)
    | none => do
      -- PCB table full, free space and return error
      let h ← kfree k.toHeap ptr
      some (SYSERR, { k with toHeap := h })
  else some (SYSERR, k)

end Xeros
